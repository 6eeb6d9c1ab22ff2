import Cascade.Proofs.Naming.Expansion

/-!
# The symbols that a tree depends on

A declaration looks up the symbol of its own kind and no other, and what it does with a
draft depends on nothing else in the table.  The id of the root is looked up at the end,
for drafts that start there, and only a tweak makes a draft do so.  Hence two tables that
agree on what the kinds in a tree look up cannot be told apart by the tree, neither by
its rules nor by its errors.
-/

namespace Cascade

/-- The symbols that a declaration of some kind has looked up. -/
def Kind.lookups : Kind → List SymbolKind
  | .component => [.component]
  | .part => [.part]
  | .option => [.option]
  | .tweak => [.tweak, .rootId]
  | .location => [.location]
  | .raw | .sibling => []

/-- Two sets of symbols with the same symbols for all that some kinds look up. -/
def Symbols.Agree (kinds : List Kind) (first second : Symbols) : Prop :=
  ∀ kind ∈ kinds, ∀ symbolKind ∈ kind.lookups,
    first.get symbolKind = second.get symbolKind

theorem Symbols.Agree.mono {kinds fewer : List Kind} {first second : Symbols}
    (h : Agree kinds first second) (hsubset : ∀ kind ∈ fewer, kind ∈ kinds) :
    Agree fewer first second :=
  fun kind hkind => h kind (hsubset kind hkind)

namespace Draft

variable {first second : Symbols} {kind : Kind} {draft next : Draft} {name : Text}

/-- What one name makes of a draft depends on the symbol of its kind alone. -/
theorem apply_congr (h : Symbols.Agree [kind] first second) :
    draft.apply first kind name = draft.apply second kind name := by
  have hsymbol : ∀ symbolKind ∈ kind.lookups,
      first.get symbolKind = second.get symbolKind := h kind (List.mem_singleton_self _)
  cases kind with
  | component =>
      have hcomponent : first.component = second.component := hsymbol .component (by decide)
      rw [apply, apply, hcomponent]
  | part =>
      have hpart : first.part = second.part := hsymbol .part (by decide)
      rw [apply, apply, hpart]
  | option =>
      have hoption : first.option = second.option := hsymbol .option (by decide)
      rw [apply, apply, hoption]
  | tweak =>
      have htweak : first.tweak = second.tweak := hsymbol .tweak (by decide)
      rw [apply, apply, htweak]
  | location =>
      have hlocation : first.location = second.location := hsymbol .location (by decide)
      rw [apply, apply, hlocation]
  | raw => rfl
  | sibling => rfl

/-- A draft that starts at the root does so under either set of symbols. -/
def RootAgrees (first second : Symbols) (draft : Draft) : Prop :=
  draft.scope.rooted = true → first.rootId = second.rootId

theorem RootAgrees.finish_congr (h : draft.RootAgrees first second) (body : Text) :
    draft.finish first.rootId body = draft.finish second.rootId body := by
  unfold finish scopeCompound
  cases hrooted : draft.scope.rooted with
  | true => rw [h hrooted]
  | false => rfl

/-- Only a tweak has a draft start at the root, and a tweak looks up where that is. -/
theorem RootAgrees.passes (h : draft.RootAgrees first second)
    (hagree : Symbols.Agree [kind] first second)
    (hpasses : Passes first draft kind name next) : next.RootAgrees first second := by
  intro hrooted
  rw [hpasses.scope_eq] at hrooted
  by_cases hkind : kind = .tweak
  · have hlookup : .rootId ∈ kind.lookups := by
      rw [hkind]
      decide
    exact hagree kind (List.mem_singleton_self _) .rootId hlookup
  · apply h
    cases kind <;> first | exact hrooted | exact absurd rfl hkind

end Draft

namespace Declaration

open Draft (RootAgrees)

variable {first second : Symbols} {declaration : Declaration} {draft : Draft}
  {drafts expanded : List Draft}

theorem extend_congr (h : Symbols.Agree [declaration.kind] first second) :
    declaration.extend first draft = declaration.extend second draft := by
  unfold extend
  simp only [Draft.apply_congr h]

theorem expand_congr (h : Symbols.Agree [declaration.kind] first second) :
    declaration.expand first drafts = declaration.expand second drafts := by
  unfold expand
  rw [mapM_congr fun draft _ => extend_congr h]

theorem rootAgrees_of_expand (hagree : Symbols.Agree [declaration.kind] first second)
    (h : ∀ draft ∈ drafts, RootAgrees first second draft)
    (hexpand : declaration.expand first drafts = .ok expanded) :
    ∀ next ∈ expanded, RootAgrees first second next := by
  intro next hnext
  obtain ⟨lists, hlists, rfl⟩ := expand_eq_ok_iff.mp hexpand
  obtain ⟨extended, hextended, hmem⟩ := List.mem_flatten.mp hnext
  obtain ⟨draft, hdraft, hextend⟩ := exists_of_mem_right hlists hextended
  obtain ⟨name, _, hpasses⟩ := exists_of_mem_right (extend_eq_ok_iff.mp hextend).2 hmem
  have hentered : (draft.enter declaration.display).RootAgrees first second := h draft hdraft
  exact hentered.passes hagree hpasses

theorem visit_congr (h : ∀ draft ∈ drafts, RootAgrees first second draft) :
    declaration.visit first drafts = declaration.visit second drafts := by
  unfold visit
  rw [mapM_congr fun draft hdraft => (h draft hdraft).finish_congr _]

mutual

/-- The whole walk is the same, up to the error that ends it. -/
theorem walk_congr (declaration : Declaration) (drafts : List Draft)
    (hagree : Symbols.Agree declaration.kinds first second)
    (h : ∀ draft ∈ drafts, RootAgrees first second draft) :
    walk first drafts declaration = walk second drafts declaration := by
  match declaration with
  | ⟨kind, names, body, children⟩ =>
      rw [kinds] at hagree
      have hkind : Symbols.Agree [kind] first second := hagree.mono (by simp)
      have hsame : expand first ⟨kind, names, body, children⟩ drafts =
          expand second ⟨kind, names, body, children⟩ drafts := expand_congr hkind
      rw [walk, walk, ← hsame]
      cases hexpand : expand first ⟨kind, names, body, children⟩ drafts with
      | error cause => rfl
      | ok expanded =>
          have hexpanded := rootAgrees_of_expand hkind h hexpand
          simp only [visit_congr hexpanded,
            walkAll_congr children expanded (hagree.mono (by simp +contextual)) hexpanded]

theorem walkAll_congr (declarations : List Declaration) (drafts : List Draft)
    (hagree : Symbols.Agree (allKinds declarations) first second)
    (h : ∀ draft ∈ drafts, RootAgrees first second draft) :
    walkAll first drafts declarations = walkAll second drafts declarations := by
  match declarations with
  | [] => rfl
  | declaration :: rest =>
      rw [allKinds] at hagree
      rw [walkAll, walkAll,
        walk_congr declaration drafts (hagree.mono (by simp +contextual)) h,
        walkAll_congr rest drafts (hagree.mono (by simp +contextual)) h]

end

/-- Two tables with the same symbols for all that the kinds of a tree look up give it the
same rules and the same leaves, or the same error, whatever their other symbols and their
baselines are. -/
theorem rules_eq_of_lookups (declaration : Declaration) (table other : SymbolTable)
    (h : ∀ kind ∈ declaration.kinds, ∀ symbolKind ∈ kind.lookups,
      table.get symbolKind = other.get symbolKind) :
    declaration.rules table = declaration.rules other ∧
      declaration.leaves table = declaration.leaves other := by
  have hempty : ∀ draft ∈ [Draft.empty],
      RootAgrees table.current other.current draft :=
    List.forall_mem_singleton.mpr nofun
  have hwalk : walk table.current [.empty] declaration =
      walk other.current [.empty] declaration := walk_congr declaration _ h hempty
  unfold Declaration.rules Declaration.leaves
  exact ⟨by rw [hwalk], by rw [hwalk]⟩

/-- A root id that cannot be written is no obstacle without a tweak, and a name that
cannot be written is refused alike under two tables with little in common. -/
theorem rules_eq_of_lookups_rootId :
    ∃ (accepted refused : Declaration) (other : SymbolTable) (rule : Rule),
      accepted = ⟨.location, [['l']], none, [⟨.option, [['o']], some [], []⟩]⟩ ∧
      refused = ⟨.location, [['l']], none, [⟨.option, [['o', ' ']], none, []⟩]⟩ ∧
      other = ⟨⟨['c'], ['p'], "--".toList, ['t'], ['@'], "a b".toList⟩,
        ⟨[], [], [], [], [], []⟩⟩ ∧
      rule.selectorText = "html .\\@l.\\--o".toList ∧
      accepted.rules .initial = .ok [rule] ∧ accepted.rules other = .ok [rule] ∧
      refused.rules .initial = .error (.unescapable "--o ".toList) ∧
      refused.rules other = .error (.unescapable "--o ".toList) := by
  have haccepted : Declaration.rules .initial
      ⟨.location, [['l']], none, [⟨.option, [['o']], some [], []⟩]⟩ =
      .ok [⟨[⟨[⟨[.element boostElement], .descendant⟩,
        ⟨[.className "\\@l".toList, .className "\\--o".toList], .none⟩],
        ⟨0, 2, 1⟩, []⟩], []⟩] := by
    decide +kernel
  have hrefused : Declaration.rules .initial
      ⟨.location, [['l']], none, [⟨.option, [['o', ' ']], none, []⟩]⟩ =
      .error (.unescapable "--o ".toList) := by
    decide +kernel
  exact ⟨_, _, _, _, rfl, rfl, rfl, by decide +kernel, haccepted,
    (rules_eq_of_lookups _ _ _ (by decide)).1.symm.trans haccepted, hrefused,
    (rules_eq_of_lookups _ _ _ (by decide)).1.symm.trans hrefused⟩

end Declaration

end Cascade
