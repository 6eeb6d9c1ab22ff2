import Cascade.Proofs.Naming.Edges
import Cascade.Proofs.Naming.Origin

/-!
# The scope compound

What stands in front of a selector depends on nothing but the kinds on the way to
its place: the raising element if an option and no fragment is among them, and the
id of the root if a tweak is.  It is one compound, however often these kinds
occur and in whatever order, since it is written at the end and what is built
before holds classes and fragments only.
-/

namespace Cascade

/-- Each effect is switched on by one kind and never switched off. -/
theorem Scope.pass_eq (scope : Scope) (kind : Kind) :
    scope.pass kind = ⟨scope.rooted || decide (kind = .tweak),
      scope.boosted || decide (kind = .option), scope.raw || decide (kind = .raw)⟩ := by
  cases kind <;> simp [pass]

def Declaration.anyOfKind (kind : Kind) (path : List Declaration) : Bool :=
  path.any fun outer => decide (outer.kind = kind)

namespace Draft

open Declaration (anyOfKind)

variable {symbols : Symbols} {draft last : Draft} {path : List Declaration}
  {names : List Text}

/-- The scope of a draft tells the kinds that it has passed. -/
theorem Reaches.scope_eq (h : Reaches symbols draft path names last) :
    last.scope = ⟨draft.scope.rooted || anyOfKind .tweak path,
      draft.scope.boosted || anyOfKind .option path,
      draft.scope.raw || anyOfKind .raw path⟩ := by
  induction h with
  | refl => simp [anyOfKind]
  | step hpasses _ ih =>
      rw [ih, hpasses.scope_eq, Scope.pass_eq]
      simp [anyOfKind, Bool.or_assoc]

end Draft

namespace Place

def crosses (place : Place) (kind : Kind) : Bool :=
  Declaration.anyOfKind kind place.path

def scope (place : Place) (root : Text) : Compound :=
  (if place.crosses .option && !place.crosses .raw then [.element boostElement]
    else []) ++
  if place.crosses .tweak then [.id root] else []

/-- What stands in front of the links that the way to a place builds. -/
def lead (place : Place) (root : Text) : Selector :=
  if (place.scope root).isEmpty then [] else [⟨place.scope root, .descendant⟩]

/-- A condition of a fragment on the way to a place. -/
def Brings (place : Place) (names : List Text) (simple : Simple) : Prop :=
  ∃ outer fragment selector, (outer, fragment) ∈ place.path.zip names ∧
    outer.kind = .raw ∧ Selector.ofText fragment = .ok selector ∧
    ∃ link ∈ selector, simple ∈ link.compound

/-- A selector of a place: its scope compound, if there is one, in front of what
was built on the way. -/
structure IsScoped (symbols : Symbols) (place : Place) (names : List Text)
    (named : NamedSelector) : Prop where
  /-- The links hold classes and what fragments bring, and so no scope compound
  of their own. -/
  selector : ∃ root draft,
    (place.crosses .tweak = true → Ident.escape? symbols.rootId = some root) ∧
    Draft.Reaches symbols .empty place.path names draft ∧
    named.selector = place.lead root ++ draft.links ∧
    ∀ link ∈ draft.links, ∀ simple ∈ link.compound,
      (∃ name, simple = .className name) ∨ place.Brings names simple
  /-- Without fragments, only the scope compound is heavier or lighter than a
  class. -/
  weight : place.crosses .raw = false → ∃ classes, named.specificity =
    ⟨0, if place.crosses .tweak then 1 else 0, classes,
      if place.crosses .option then 1 else 0⟩

variable {symbols : Symbols} {place : Place} {names : List Text}
  {named : NamedSelector}

theorem crosses_eq_false_iff {kind : Kind} :
    place.crosses kind = false ↔ ∀ outer ∈ place.path, outer.kind ≠ kind := by
  simp [crosses, Declaration.anyOfKind]

/-- What is finished at a place stands behind its scope compound. -/
theorem Yields.exists_lead (h : place.Yields symbols names named) :
    ∃ root draft,
      (place.crosses .tweak = true → Ident.escape? symbols.rootId = some root) ∧
      Draft.Reaches symbols .empty place.path names draft ∧
      named.selector = place.lead root ++ draft.links := by
  obtain ⟨draft, hreaches, hfinish⟩ := h
  obtain ⟨compound, hcompound, rfl⟩ := exists_of_map_eq_ok hfinish
  obtain ⟨root, hroot, rfl⟩ := Draft.exists_root_of_scopeCompound hcompound
  have hscope := hreaches.scope_eq
  simp only [Draft.empty, Scope.none, Bool.false_or] at hscope
  rw [hscope] at hroot
  refine ⟨root, draft, fun hcrosses => Draft.escape?_of_escaped (hroot hcrosses),
    hreaches, ?_⟩
  change draft.scopedLinks _ = place.lead root ++ draft.links
  rw [Draft.scopedLinks, hscope]
  change (if (place.scope root).isEmpty then _ else _) = _
  unfold lead
  split <;> rfl

end Place

/-- Classes weigh nothing but classes. -/
theorem Compound.exists_specificity_of_classes {compound : Compound}
    (h : ∀ simple ∈ compound, ∃ name, simple = .className name) :
    ∃ classes, Compound.specificity compound = ⟨0, 0, classes, 0⟩ := by
  induction compound with
  | nil => exact ⟨0, rfl⟩
  | cons simple rest ih =>
      obtain ⟨⟨name, rfl⟩, hrest⟩ := List.forall_mem_cons.mp h
      obtain ⟨classes, hclasses⟩ := ih hrest
      exact ⟨1 + classes, by rw [Compound.specificity, hclasses]; rfl⟩

theorem Selector.exists_specificity_of_classes {selector : Selector}
    (h : ∀ link ∈ selector, ∀ simple ∈ link.compound,
      ∃ name, simple = .className name) :
    ∃ classes, Selector.specificity selector = ⟨0, 0, classes, 0⟩ := by
  induction selector with
  | nil => exact ⟨0, rfl⟩
  | cons link rest ih =>
      obtain ⟨compound, combinator⟩ := link
      obtain ⟨hlink, hrest⟩ := List.forall_mem_cons.mp h
      obtain ⟨first, hfirst⟩ := Compound.exists_specificity_of_classes hlink
      obtain ⟨others, hothers⟩ := ih hrest
      exact ⟨first + others, by rw [Selector.specificity, hfirst, hothers]; rfl⟩

namespace Place

variable {symbols : Symbols} {place : Place} {names : List Text}
  {named : NamedSelector}

/-- Without fragments the scope compound holds an element for options and an id
for tweaks. -/
theorem specificity_lead (hraw : place.crosses .raw = false) (root : Text) :
    Selector.specificity (place.lead root) =
      ⟨0, if place.crosses .tweak then 1 else 0, 0,
        if place.crosses .option then 1 else 0⟩ := by
  unfold lead scope
  rw [hraw]
  cases place.crosses .option <;> cases place.crosses .tweak <;> rfl

/-- What a place yields has its scope compound, and no second one. -/
theorem Yields.isScoped (h : place.Yields symbols names named) :
    place.IsScoped symbols names named := by
  obtain ⟨root, draft, hroot, hreaches, hselector⟩ := h.exists_lead
  have hlinks : ∀ link ∈ draft.links, ∀ simple ∈ link.compound,
      (∃ name, simple = .className name) ∨ place.Brings names simple := by
    refine hreaches.forall_simple (fun name => .inl ⟨name, rfl⟩) ?_
      (by simp [Draft.empty])
    intro outer fragment hmem hkind selector hfragment link hlink simple hsimple
    exact .inr ⟨outer, fragment, selector, hmem, hkind, hfragment, link, hlink, hsimple⟩
  refine ⟨⟨root, draft, hroot, hreaches, hselector, hlinks⟩, fun hraw => ?_⟩
  have hnoRaw := crosses_eq_false_iff.mp hraw
  have hclasses : ∀ link ∈ draft.links, ∀ simple ∈ link.compound,
      ∃ name, simple = .className name := by
    intro link hlink simple hsimple
    refine (hlinks link hlink simple hsimple).resolve_right ?_
    rintro ⟨outer, _, _, hmem, hkind, _⟩
    exact hnoRaw outer (List.of_mem_zip hmem).1 hkind
  obtain ⟨classes, hweight⟩ := Selector.exists_specificity_of_classes hclasses
  refine ⟨classes, ?_⟩
  calc
    named.specificity = Selector.specificity named.selector := (h.plain hnoRaw).2
    _ = (Selector.specificity (place.lead root)).add ⟨0, 0, classes, 0⟩ := by
        rw [hselector, Selector.specificity_append, hweight]
    _ = _ := by
        rw [specificity_lead hraw root]
        simp [Specificity.add]

end Place

namespace Declaration

/-- The selectors of every rule, and of every leaf, are scoped by the kinds on the
way to their node. -/
theorem isScoped_named (table : SymbolTable) (declaration : Declaration) :
    (∀ rules, declaration.rules table = .ok rules →
        List.Forall₂ (fun place rule =>
            List.Forall₂ (place.IsScoped table.current) place.namings
              rule.selectors)
          ((places [] declaration).filter fun place => place.node.body.isSome)
          rules) ∧
      ∀ leaves, declaration.leaves table = .ok leaves →
        ∃ groups : List (List NamedSelector), leaves = groups.flatten ∧
          List.Forall₂ (fun place group =>
              List.Forall₂ (place.IsScoped table.current) place.namings group)
            ((places [] declaration).filter fun place => place.node.isLeaf)
            groups := by
  constructor
  · intro rules hrules
    exact (forall₂_yields_of_rules hrules).imp fun _ _ hyields =>
      hyields.2.imp fun _ _ hyield => hyield.isScoped
  · intro leaves hleaves
    obtain ⟨groups, rfl, hall⟩ := exists_forall₂_yields_of_leaves hleaves
    exact ⟨groups, rfl, hall.imp fun _ _ hyields =>
      hyields.imp fun _ _ hyield => hyield.isScoped⟩

/-- Tweaks and options twice over and a copy of the last element: one scope
compound.  A fragment beside them takes the element away and brings one of the
same name. -/
theorem isScoped_named_twice :
    ∃ outer first inner second copy fragment upper lower,
      outer = ⟨.tweak, [['t']], none, [first]⟩ ∧
      first = ⟨.option, [['o']], none, [inner, fragment]⟩ ∧
      inner = ⟨.tweak, [['u']], none, [second]⟩ ∧
      second = ⟨.option, [['p']], none, [copy]⟩ ∧
      copy = ⟨.sibling, [], some [], []⟩ ∧
      fragment = ⟨.raw, ["& > html".toList], some [], []⟩ ∧
      Declaration.rules .initial outer = .ok [⟨[upper], []⟩, ⟨[lower], []⟩] ∧
      upper.text = "html#app .\\+t.\\--o .\\+u.\\--p + .\\+u.\\--p".toList ∧
      lower.text = "#app .\\+t.\\--o > html".toList ∧
      Place.IsScoped .builtin ⟨[outer, first, inner, second], copy⟩
        [['t'], ['o'], ['u'], ['p'], []] upper ∧
      Place.IsScoped .builtin ⟨[outer, first], fragment⟩
        [['t'], ['o'], "& > html".toList] lower := by
  have hrules : Declaration.rules .initial ⟨.tweak, [['t']], none,
      [⟨.option, [['o']], none,
        [⟨.tweak, [['u']], none, [⟨.option, [['p']], none,
          [⟨.sibling, [], some [], []⟩]⟩]⟩,
        ⟨.raw, ["& > html".toList], some [], []⟩]⟩]⟩ =
      .ok [⟨[⟨[⟨[.element boostElement, .id "app".toList], .descendant⟩,
          ⟨[.className "\\+t".toList, .className "\\--o".toList], .descendant⟩,
          ⟨[.className "\\+u".toList, .className "\\--p".toList], .adjacent⟩,
          ⟨[.className "\\+u".toList, .className "\\--p".toList], .none⟩],
          ⟨1, 6, 1⟩, []⟩], []⟩,
        ⟨[⟨[⟨[.id "app".toList], .descendant⟩,
          ⟨[.className "\\+t".toList, .className "\\--o".toList], .child⟩,
          ⟨[.element "html".toList], .none⟩], ⟨1, 2, 1⟩, []⟩], []⟩] := by
    decide +kernel
  have hall := (isScoped_named _ _).1 _ hrules
  obtain ⟨hupper, hrest⟩ := List.forall₂_cons.mp hall
  obtain ⟨hlower, _⟩ := List.forall₂_cons.mp hrest
  exact ⟨_, _, _, _, _, _, _, _, rfl, rfl, rfl, rfl, rfl, rfl, hrules,
    by decide +kernel, by decide +kernel, (List.forall₂_cons.mp hupper).1,
    (List.forall₂_cons.mp hlower).1⟩

end Declaration

end Cascade
