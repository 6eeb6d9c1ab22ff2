import Cascade.Proofs.Lists
import Cascade.Proofs.Naming.Fragment
import Cascade.Stylesheet.Compile

/-!
# What a walk finishes

Every selector that a walk finishes comes from a draft that has passed at least
one declaration.  So whatever is true of the empty draft and is kept by every
kind of declaration in the tree is true of all these drafts.
-/

namespace Cascade

namespace Draft

open Selector (Assembled)

variable {holds : Simple → Prop} {draft : Draft}

/-- The scope compound is the element that raises the selector, if it is raised,
and then the id of the root, if the selector starts there. -/
theorem exists_root_of_scopeCompound {rootId : Text} {scope : Compound}
    (h : draft.scopeCompound rootId = .ok scope) :
    ∃ root, (draft.scope.rooted = true → escaped rootId = .ok root) ∧
      scope = (if draft.scope.emitsBoost then [.element boostElement] else []) ++
        if draft.scope.rooted then [.id root] else [] := by
  unfold scopeCompound at h
  cases hrooted : draft.scope.rooted with
  | true =>
      rw [hrooted, if_pos rfl] at h
      obtain ⟨root, hroot, rfl⟩ := exists_of_map_eq_ok h
      exact ⟨root, fun _ => hroot, rfl⟩
  | false =>
      rw [hrooted, if_neg Bool.false_ne_true] at h
      cases h
      exact ⟨[], nofun, (List.append_nil _).symm⟩

/-- The scope compound holds plain conditions, the element in front. -/
theorem scopeCompound_spec {rootId : Text} {scope : Compound}
    (h : draft.scopeCompound rootId = .ok scope) (hne : scope ≠ []) :
    Compound.Joined scope ∧ ∀ simple ∈ scope, simple.IsPlain := by
  have hboost : Simple.IsPlain (.element boostElement) :=
    .element (by decide +kernel)
  obtain ⟨root, hroot, rfl⟩ := exists_root_of_scopeCompound h
  cases hrooted : draft.scope.rooted with
  | true =>
      have hid : Simple.IsPlain (.id root) := .id (isClosed_of_escaped (hroot hrooted))
      split
      · exact ⟨⟨fun _ => rfl, trivial⟩, by simp [hboost, hid]⟩
      · exact ⟨trivial, by simpa using hid⟩
  | false =>
      split
      · exact ⟨trivial, by simpa using hboost⟩
      · rename_i hscope
        rw [if_neg hscope, hrooted] at hne
        exact absurd rfl hne

/-- A finished selector is assembled, and its tally is its weight. -/
theorem Built.finish (h : draft.Built holds)
    (hplain : ∀ simple : Simple, simple.IsPlain → holds simple)
    (hne : draft.links ≠ []) {rootId body : Text} {named : NamedSelector}
    (hfinish : draft.finish rootId body = .ok named) :
    Assembled holds named.selector ∧
      named.specificity = Selector.specificity named.selector := by
  obtain ⟨scope, hscope, rfl⟩ := exists_of_map_eq_ok hfinish
  have hassembled := h.assembled_of_ne_nil hne
  change Assembled holds (draft.scopedLinks scope) ∧
    (draft.tally.countCompound scope).specificity =
      Selector.specificity (draft.scopedLinks scope)
  rw [Tally.specificity_countCompound, h.counted, scopedLinks]
  by_cases hempty : scope = []
  · rw [hempty]
    exact ⟨hassembled, Specificity.add_zero _⟩
  · obtain ⟨hjoined, hpieces⟩ := scopeCompound_spec hscope hempty
    rw [if_neg (by simpa using hempty), Specificity.add_comm]
    have hscoped : Assembled holds ([⟨scope, .descendant⟩] ++ draft.links) := by
      refine (Selector.assembled_append hne).mpr ⟨?_, hassembled⟩
      exact List.forall_mem_singleton.mpr
        ⟨by simp, hjoined, fun simple hsimple => hplain simple (hpieces simple hsimple)⟩
    exact ⟨hscoped, rfl⟩

end Draft

namespace Declaration

mutual

def kinds : Declaration → List Kind
  | ⟨kind, _, _, children⟩ => kind :: allKinds children

def allKinds : List Declaration → List Kind
  | [] => []
  | declaration :: rest => declaration.kinds ++ allKinds rest

end

/-- What every declaration of the given kinds keeps true of a draft, and each
leaves a link behind. -/
structure Keeps (symbols : Symbols) (kinds : List Kind)
    (holds : Draft → Prop) : Prop where
  enter : ∀ draft display, holds draft → holds (draft.enter display)
  apply : ∀ kind ∈ kinds, ∀ name draft next, holds draft →
    draft.apply symbols kind name = .ok next → holds next ∧ next.links ≠ []

variable {symbols : Symbols} {holds : Draft → Prop}

theorem Keeps.mono {kinds fewer : List Kind} (h : Keeps symbols kinds holds)
    (hsubset : ∀ kind ∈ fewer, kind ∈ kinds) : Keeps symbols fewer holds :=
  ⟨h.enter, fun kind hkind => h.apply kind (hsubset kind hkind)⟩

theorem extend_spec {declaration : Declaration} {draft : Draft}
    {extended : List Draft}
    (hkeeps : Keeps symbols [declaration.kind] holds) (h : holds draft)
    (hextend : declaration.extend symbols draft = .ok extended) :
    extended ≠ [] ∧ ∀ next ∈ extended, holds next ∧ next.links ≠ [] := by
  simp only [Declaration.extend] at hextend
  split at hextend
  · cases hextend
  · rename_i hchoices
    obtain ⟨hlength, hnext⟩ := exists_of_mem_mapM hextend
    constructor
    · rintro rfl
      exact hchoices (List.isEmpty_iff.mpr (List.length_eq_zero_iff.mp hlength.symm))
    · intro next hmem
      obtain ⟨name, _, happly⟩ := hnext next hmem
      exact hkeeps.apply _ (by simp) name _ next (hkeeps.enter _ _ h) happly

/-- Drafts are multiplied, and each of the new ones comes from an old one. -/
theorem expand_spec {declaration : Declaration} {drafts expanded : List Draft}
    (hkeeps : Keeps symbols [declaration.kind] holds) (hne : drafts ≠ [])
    (h : ∀ draft ∈ drafts, holds draft)
    (hexpand : declaration.expand symbols drafts = .ok expanded) :
    expanded ≠ [] ∧ ∀ next ∈ expanded, holds next ∧ next.links ≠ [] := by
  obtain ⟨lists, hlists, rfl⟩ := exists_of_map_eq_ok hexpand
  obtain ⟨hlength, hextended⟩ := exists_of_mem_mapM hlists
  have hspec : ∀ list ∈ lists,
      list ≠ [] ∧ ∀ next ∈ list, holds next ∧ next.links ≠ [] := by
    intro list hlist
    obtain ⟨draft, hdraft, hextend⟩ := hextended list hlist
    exact extend_spec hkeeps (h draft hdraft) hextend
  constructor
  · obtain ⟨list, rest, rfl⟩ : ∃ list rest, lists = list :: rest := by
      apply List.exists_cons_of_ne_nil
      rintro rfl
      exact hne (List.length_eq_zero_iff.mp hlength.symm)
    rw [List.flatten_cons]
    exact List.append_ne_nil_of_left_ne_nil (hspec list (by simp)).1 _
  · intro next hnext
    obtain ⟨list, hlist, hmem⟩ := List.mem_flatten.mp hnext
    exact (hspec list hlist).2 next hmem

/-- A visit whose selectors were finished from drafts with a link. -/
def Finishes (symbols : Symbols) (holds : Draft → Prop) (visit : Visit) : Prop :=
  visit.selectors ≠ [] ∧ ∀ named ∈ visit.selectors, ∃ draft body,
    holds draft ∧ draft.links ≠ [] ∧ draft.finish symbols.rootId body = .ok named

theorem visit_spec {declaration : Declaration} {drafts : List Draft}
    (hne : drafts ≠ []) (h : ∀ draft ∈ drafts, holds draft ∧ draft.links ≠ []) :
    ∀ visit ∈ (declaration.visit symbols drafts).visits,
      Finishes symbols holds visit := by
  intro visit hvisit
  unfold Declaration.visit at hvisit
  split at hvisit
  · split at hvisit
    · rename_i selectors hselectors
      obtain ⟨hlength, hnamed⟩ := exists_of_mem_mapM hselectors
      obtain rfl := List.mem_singleton.mp hvisit
      constructor
      · rintro rfl
        exact hne (List.length_eq_zero_iff.mp hlength.symm)
      · intro named hmem
        obtain ⟨draft, hdraft, hfinish⟩ := hnamed named hmem
        exact ⟨draft, _, (h draft hdraft).1, (h draft hdraft).2, hfinish⟩
    · cases hvisit
  · cases hvisit

theorem mem_visits_andThen {first second : Trace} {visit : Visit}
    (h : visit ∈ (first.andThen second).visits) :
    visit ∈ first.visits ∨ visit ∈ second.visits := by
  unfold Trace.andThen at h
  split at h
  · exact .inl h
  · exact List.mem_append.mp h

mutual

theorem walk_spec (declaration : Declaration)
    (hkeeps : Keeps symbols declaration.kinds holds) (drafts : List Draft)
    (hne : drafts ≠ []) (h : ∀ draft ∈ drafts, holds draft) :
    ∀ visit ∈ (walk symbols drafts declaration).visits,
      Finishes symbols holds visit := by
  match declaration with
  | ⟨kind, names, body, children⟩ =>
      intro visit hvisit
      unfold walk at hvisit
      split at hvisit
      · cases hvisit
      · rename_i expanded hexpand
        rw [kinds] at hkeeps
        obtain ⟨hne', h'⟩ :=
          expand_spec (hkeeps.mono (by simp)) hne h hexpand
        rcases mem_visits_andThen hvisit with hvisit | hvisit
        · exact visit_spec hne' h' visit hvisit
        · exact walkAll_spec children (hkeeps.mono (by simp +contextual)) expanded
            hne' (fun draft hdraft => (h' draft hdraft).1) visit hvisit

theorem walkAll_spec (declarations : List Declaration)
    (hkeeps : Keeps symbols (allKinds declarations) holds) (drafts : List Draft)
    (hne : drafts ≠ []) (h : ∀ draft ∈ drafts, holds draft) :
    ∀ visit ∈ (walkAll symbols drafts declarations).visits,
      Finishes symbols holds visit := by
  match declarations with
  | [] => nofun
  | declaration :: rest =>
      intro visit hvisit
      rw [allKinds] at hkeeps
      rcases mem_visits_andThen hvisit with hvisit | hvisit
      · exact walk_spec declaration (hkeeps.mono (by simp +contextual)) drafts hne h
          visit hvisit
      · exact walkAll_spec rest (hkeeps.mono (by simp +contextual)) drafts hne h
          visit hvisit

end

/-! ## Rules and leaves -/

/-- The visits of a walk that came to its end are all of its visits. -/
theorem visits_of_result {trace : Trace} {visits : List Visit}
    (h : trace.result = .ok visits) : trace.visits = visits := by
  unfold Trace.result at h
  split at h
  · cases h
  · exact Except.ok.inj h

/-- Every rule holds the selectors of a visited node. -/
theorem exists_visit_of_mem_rules {table : SymbolTable}
    {declaration : Declaration} {rules : List Rule}
    (h : declaration.rules table = .ok rules) {rule : Rule}
    (hrule : rule ∈ rules) :
    ∃ visit ∈ (walk table.current [.empty] declaration).visits,
      rule.selectors = visit.selectors := by
  obtain ⟨visits, hvisits, rfl⟩ := exists_of_map_eq_ok h
  obtain ⟨visit, hvisit, hbody⟩ := List.mem_filterMap.mp hrule
  obtain ⟨body, _, rfl⟩ := Option.map_eq_some_iff.mp hbody
  exact ⟨visit, visits_of_result hvisits ▸ hvisit, rfl⟩

/-- Every leaf selector was finished at a visited node. -/
theorem exists_visit_of_mem_leaves {table : SymbolTable}
    {declaration : Declaration} {leaves : List NamedSelector}
    (h : declaration.leaves table = .ok leaves) {named : NamedSelector}
    (hnamed : named ∈ leaves) :
    ∃ visit ∈ (walk table.current [.empty] declaration).visits,
      named ∈ visit.selectors := by
  obtain ⟨visits, hvisits, rfl⟩ := exists_of_map_eq_ok h
  obtain ⟨visit, hvisit, hleaf⟩ := List.mem_flatMap.mp hnamed
  refine ⟨visit, visits_of_result hvisits ▸ hvisit, ?_⟩
  unfold Visit.leaves at hleaf
  split at hleaf
  · exact hleaf
  · cases hleaf

/-- The selectors of every visit are assembled, and their tallies are their
weights.  Without fragments all their conditions are plain ones. -/
theorem visits_spec (holds : Simple → Prop)
    (hplain : ∀ simple : Simple, simple.IsPlain → holds simple)
    (symbols : Symbols) (declaration : Declaration)
    (hraw : .raw ∈ declaration.kinds →
      ∀ simple, holds simple ↔ simple.IsSpelled) :
    ∀ visit ∈ (walk symbols [.empty] declaration).visits,
      visit.selectors ≠ [] ∧ ∀ named ∈ visit.selectors,
        Selector.Assembled holds named.selector ∧
          named.specificity = Selector.specificity named.selector := by
  intro visit hvisit
  have hkeeps : Keeps symbols declaration.kinds (Draft.Built holds) :=
    ⟨fun draft display hbuilt => hbuilt.enter display,
      fun kind hkind name draft next hbuilt happly =>
        hbuilt.apply hplain (fun hkind' => hraw (hkind' ▸ hkind)) happly⟩
  have hfinishes := walk_spec declaration hkeeps [.empty] (by simp)
    (List.forall_mem_singleton.mpr Draft.built_empty) visit hvisit
  refine ⟨hfinishes.1, fun named hnamed => ?_⟩
  obtain ⟨draft, body, hbuilt, hne, hfinish⟩ := hfinishes.2 named hnamed
  exact hbuilt.finish hplain hne hfinish

/-- The selectors of every rule are assembled, and their tallies are their
weights.  Without fragments all their conditions are plain ones. -/
theorem rules_spec (holds : Simple → Prop)
    (hplain : ∀ simple : Simple, simple.IsPlain → holds simple)
    {table : SymbolTable} {declaration : Declaration} {rules : List Rule}
    (hraw : .raw ∈ declaration.kinds → ∀ simple, holds simple ↔ simple.IsSpelled)
    (h : declaration.rules table = .ok rules) {rule : Rule}
    (hrule : rule ∈ rules) :
    rule.selectors ≠ [] ∧ ∀ named ∈ rule.selectors,
      Selector.Assembled holds named.selector ∧
        named.specificity = Selector.specificity named.selector := by
  obtain ⟨visit, hvisit, hselectors⟩ := exists_visit_of_mem_rules h hrule
  rw [hselectors]
  exact visits_spec holds hplain table.current declaration hraw visit hvisit

/-- What is counted on the way down is what the finished selector weighs, its
scope compound included: of the selectors of every rule, and of every leaf. -/
theorem specificity_named (table : SymbolTable) (declaration : Declaration) :
    (∀ rules, declaration.rules table = .ok rules →
        ∀ rule ∈ rules, ∀ named ∈ rule.selectors,
          named.specificity = Selector.specificity named.selector) ∧
      ∀ leaves, declaration.leaves table = .ok leaves → ∀ named ∈ leaves,
        named.specificity = Selector.specificity named.selector := by
  have hvisits := visits_spec Simple.IsSpelled (fun _ hplain => hplain.isSpelled)
    table.current declaration fun _ _ => Iff.rfl
  constructor
  · intro rules hrules rule hrule named hnamed
    obtain ⟨visit, hvisit, hselectors⟩ := exists_visit_of_mem_rules hrules hrule
    rw [hselectors] at hnamed
    exact ((hvisits visit hvisit).2 named hnamed).2
  · intro leaves hleaves named hnamed
    obtain ⟨visit, hvisit, hmem⟩ := exists_visit_of_mem_leaves hleaves hnamed
    exact ((hvisits visit hvisit).2 named hmem).2

/-- A tweak with an option, a fragment and a copy of the last element: the copy
is counted again, the suffix is not, and the fragment takes the boost away. -/
theorem specificity_named_sibling :
    ∃ declaration upper lower,
      declaration = ⟨.tweak, [['t']], none, [⟨.raw, ["&-x".toList], none,
        [⟨.option, [['o']], some [], [⟨.raw, ["&:is(#a, b)".toList], none,
          [⟨.sibling, [], none, []⟩]⟩]⟩]⟩]⟩ ∧
      Declaration.rules .initial declaration = .ok [⟨[upper], []⟩] ∧
      Declaration.leaves .initial declaration = .ok [lower] ∧
      upper.text = "#app .\\+t-x.\\--o".toList ∧
      lower.text = "#app .\\+t-x.\\--o:is(#a, b) + .\\+t-x.\\--o:is(#a, b)".toList ∧
      Selector.specificity upper.selector = ⟨0, 1, 2, 0⟩ ∧
      Selector.specificity lower.selector = ⟨0, 3, 4, 0⟩ := by
  have hrules : Declaration.rules .initial ⟨.tweak, [['t']], none,
      [⟨.raw, ["&-x".toList], none, [⟨.option, [['o']], some [],
        [⟨.raw, ["&:is(#a, b)".toList], none,
          [⟨.sibling, [], none, []⟩]⟩]⟩]⟩]⟩ =
      .ok [⟨[⟨[⟨[.id "app".toList], .descendant⟩,
        ⟨[.className "\\+t-x".toList, .className "\\--o".toList], .none⟩],
        ⟨1, 2, 0⟩, []⟩], []⟩] := by
    decide +kernel
  have hleaves : Declaration.leaves .initial ⟨.tweak, [['t']], none,
      [⟨.raw, ["&-x".toList], none, [⟨.option, [['o']], some [],
        [⟨.raw, ["&:is(#a, b)".toList], none,
          [⟨.sibling, [], none, []⟩]⟩]⟩]⟩]⟩ =
      .ok [⟨[⟨[.id "app".toList], .descendant⟩,
        ⟨[.className "\\+t-x".toList, .className "\\--o".toList,
          .selectorFunction "is".toList
            [[⟨[.id ['a']], .none⟩], [⟨[.element ['b']], .none⟩]]], .adjacent⟩,
        ⟨[.className "\\+t-x".toList, .className "\\--o".toList,
          .selectorFunction "is".toList
            [[⟨[.id ['a']], .none⟩], [⟨[.element ['b']], .none⟩]]], .none⟩],
        ⟨3, 4, 0⟩, []⟩] := by
    decide +kernel
  have hupper := (specificity_named _ _).1 _ hrules _ (List.mem_singleton_self _)
    _ (List.mem_singleton_self _)
  have hlower := (specificity_named _ _).2 _ hleaves _ (List.mem_singleton_self _)
  exact ⟨_, _, _, rfl, hrules, hleaves, by decide +kernel, by decide +kernel,
    hupper.symm, hlower.symm⟩

end Declaration

end Cascade
