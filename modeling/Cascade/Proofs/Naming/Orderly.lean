import Cascade.Proofs.Naming.Edges
import Cascade.Proofs.Naming.Origin

/-!
# Selectors in order

Whatever declarations are nested, a finished selector has compounds, none of them
is empty, a combinator stands behind each but the last, no parent reference is
left, and an element is named at the front of its compound only.  A fragment is
refused where it would break this, so that every compound that comes of an
orderly draft is orderly again.
-/

namespace Cascade

namespace Compound

/-- At least one condition, no reference to a parent, and elements in the first
place only. -/
structure IsOrderly (compound : Compound) : Prop where
  ne_nil : compound ≠ []
  noParent : ∀ simple ∈ compound, simple ≠ .parent
  elementFirst : ∀ simple ∈ compound.tail, simple.isElement = false

theorem hasParent_eq_false_iff {compound : Compound} :
    hasParent compound = false ↔ ∀ simple ∈ compound, simple ≠ .parent := by
  rw [hasParent, List.any_eq_false]
  refine forall₂_congr fun simple _ => ?_
  cases simple <;> simp [Simple.isParent]

theorem hasMisplacedElement_eq_false_iff {compound : Compound} :
    hasMisplacedElement compound = false ↔
      ∀ simple ∈ compound.tail, simple.isElement = false := by
  simp [hasMisplacedElement]

theorem isOrderly_className (name : Text) : IsOrderly [.className name] :=
  ⟨by simp, by simp, by simp⟩

/-- Conditions that name neither a parent nor an element may follow any others. -/
theorem IsOrderly.append {first second : Compound} (h : IsOrderly first)
    (hparent : hasParent second = false)
    (helements : second.any Simple.isElement = false) :
    IsOrderly (first ++ second) where
  ne_nil := List.append_ne_nil_of_left_ne_nil h.ne_nil _
  noParent := List.forall_mem_append.mpr
    ⟨h.noParent, hasParent_eq_false_iff.mp hparent⟩
  elementFirst := by
    rw [List.tail_append_of_ne_nil h.ne_nil, List.forall_mem_append]
    exact ⟨h.elementFirst, by simpa using helements⟩

/-- A class may stand in the place of another one. -/
theorem IsOrderly.replace_class {front : Compound} {name : Text}
    (h : IsOrderly (front ++ [.className name])) (other : Text) :
    IsOrderly (front ++ [.className other]) := by
  cases front with
  | nil => exact isOrderly_className other
  | cons simple front =>
      have hfront : IsOrderly (simple :: front) :=
        ⟨by simp, (List.forall_mem_append.mp h.noParent).1,
          (List.forall_mem_append.mp h.elementFirst).1⟩
      exact hfront.append rfl rfl

end Compound

namespace Selector

/-- A combinator behind each compound but the last, and orderly compounds. -/
structure IsOrderly (selector : Selector) : Prop where
  linked : ∃ front last, selector = front ++ [last] ∧ last.combinator = .none ∧
    ∀ link ∈ front, link.combinator ≠ .none
  compounds : ∀ link ∈ selector, Compound.IsOrderly link.compound

theorem Assembled.exists_linked {holds : Simple → Prop} {selector : Selector}
    (h : Assembled holds selector) :
    ∃ front last, selector = front ++ [last] ∧ last.combinator = .none ∧
      ∀ link ∈ front, link.combinator ≠ .none := by
  obtain ⟨front, last, rfl⟩ := h.exists_concat
  obtain ⟨hfront, hlast⟩ := (linked_append (by simp)).mp h.linked
  exact ⟨front, last, rfl, hlast, hfront⟩

end Selector

namespace Draft

variable {symbols : Symbols} {draft next last : Draft} {kind : Kind} {name : Text}
  {compound : Compound}

/-- What comes of orderly compounds is orderly. -/
theorem CompoundAfter.isOrderly (h : CompoundAfter draft kind name compound)
    (hdraft : ∀ link ∈ draft.links, Compound.IsOrderly link.compound) :
    Compound.IsOrderly compound := by
  cases h with
  | kept hlink => exact hdraft _ hlink
  | ofClass text => exact Compound.isOrderly_className text
  | addClass text hlink => exact (hdraft _ hlink).append rfl rfl
  | @fragment selector link _ hselector hlink hparent helement =>
      have hjoined := (Selector.spells_of_ofText hselector).assembled.joined link hlink
      exact ⟨hjoined.ne_nil, Compound.hasParent_eq_false_iff.mp hparent,
        Compound.hasMisplacedElement_eq_false_iff.mp helement⟩
  | glued _ _ hparent helements hlink =>
      exact (hdraft _ hlink).append hparent helements
  | lengthened _ _ hparent helements hlink =>
      exact ((hdraft _ hlink).replace_class _).append hparent helements

/-- So every draft that is reached has orderly compounds. -/
theorem Reaches.isOrderly {path : List Declaration} {names : List Text}
    (h : Reaches symbols .empty path names last) :
    ∀ link ∈ last.links, Compound.IsOrderly link.compound := by
  refine h.preserves
    (fun draft => ∀ link ∈ draft.links, Compound.IsOrderly link.compound)
    (by simp [empty]) ?_
  intro outer _ name _ draft next hdraft hpasses link hlink
  exact (hpasses.compoundAfter link hlink).isOrderly hdraft

theorem isOrderly_scopeCompound {rootId : Text} {scope : Compound}
    (h : draft.scopeCompound rootId = .ok scope) (hne : scope ≠ []) :
    Compound.IsOrderly scope := by
  obtain ⟨root, _, rfl⟩ := exists_root_of_scopeCompound h
  have hid : Compound.IsOrderly [.id root] := ⟨by simp, by simp, by simp⟩
  have hboost : Compound.IsOrderly [.element boostElement] :=
    ⟨by simp, by simp, by simp⟩
  cases hemits : draft.scope.emitsBoost <;>
    cases hrooted : draft.scope.rooted <;> simp only [hemits, hrooted] at hne ⊢
  · exact absurd rfl hne
  · exact hid
  · exact hboost
  · exact hboost.append rfl rfl

end Draft

namespace Place

/-- What a place yields is orderly. -/
theorem Yields.isOrderly {symbols : Symbols} {place : Place} {names : List Text}
    {named : NamedSelector} (h : place.Yields symbols names named) :
    Selector.IsOrderly named.selector := by
  refine ⟨h.hasTrimmableEnds.1.exists_linked, ?_⟩
  obtain ⟨draft, hreaches, hfinish⟩ := h
  obtain ⟨scope, hscope, rfl⟩ := exists_of_map_eq_ok hfinish
  change ∀ link ∈ draft.scopedLinks scope, Compound.IsOrderly link.compound
  unfold Draft.scopedLinks
  split
  · exact hreaches.isOrderly
  · rename_i hne
    exact List.forall_mem_cons.mpr
      ⟨Draft.isOrderly_scopeCompound hscope (by simpa using hne), hreaches.isOrderly⟩

end Place

namespace Declaration

/-- The selectors of every rule, and of every leaf, are orderly, fragments or
not. -/
theorem isOrderly_named (table : SymbolTable) (declaration : Declaration) :
    (∀ rules, declaration.rules table = .ok rules →
        ∀ rule ∈ rules, ∀ named ∈ rule.selectors,
          Selector.IsOrderly named.selector) ∧
      ∀ leaves, declaration.leaves table = .ok leaves → ∀ named ∈ leaves,
        Selector.IsOrderly named.selector := by
  constructor
  · intro rules hrules rule hrule named hnamed
    obtain ⟨place, _, _, hyields⟩ :=
      exists_of_mem_right (forall₂_yields_of_rules hrules) hrule
    obtain ⟨names, _, hyield⟩ := exists_of_mem_right hyields hnamed
    exact hyield.isOrderly
  · intro leaves hleaves named hnamed
    obtain ⟨groups, rfl, hall⟩ := exists_forall₂_yields_of_leaves hleaves
    obtain ⟨group, hgroup, hmem⟩ := List.mem_flatten.mp hnamed
    obtain ⟨place, _, hyields⟩ := exists_of_mem_right hall hgroup
    obtain ⟨names, _, hyield⟩ := exists_of_mem_right hyields hmem
    exact hyield.isOrderly

/-- A fragment as the root, one that lengthens a class and goes on with elements,
and a copy of the last of them.  The reference inside of the function stays. -/
theorem isOrderly_named_fragments :
    ∃ declaration upper lower,
      declaration = ⟨.raw, ["ul > li".toList], none, [⟨.component, [['c']], none,
        [⟨.option, [['o']], some [], [⟨.raw, ["&-x:is(&, b) ~ *:hover".toList], none,
          [⟨.sibling, [], none, []⟩]⟩]⟩]⟩]⟩ ∧
      Declaration.rules .initial declaration = .ok [⟨[upper], []⟩] ∧
      Declaration.leaves .initial declaration = .ok [lower] ∧
      upper.text = "ul > li .c.\\--o".toList ∧
      lower.text = "ul > li .c.\\--o-x:is(&, b) ~ *:hover + *:hover".toList ∧
      Selector.IsOrderly upper.selector ∧ Selector.IsOrderly lower.selector := by
  have hrules : Declaration.rules .initial ⟨.raw, ["ul > li".toList], none,
      [⟨.component, [['c']], none, [⟨.option, [['o']], some [],
        [⟨.raw, ["&-x:is(&, b) ~ *:hover".toList], none,
          [⟨.sibling, [], none, []⟩]⟩]⟩]⟩]⟩ =
      .ok [⟨[⟨[⟨[.element "ul".toList], .child⟩,
        ⟨[.element "li".toList], .descendant⟩,
        ⟨[.className ['c'], .className "\\--o".toList], .none⟩],
        ⟨0, 2, 2⟩, []⟩], []⟩] := by
    decide +kernel
  have hleaves : Declaration.leaves .initial ⟨.raw, ["ul > li".toList], none,
      [⟨.component, [['c']], none, [⟨.option, [['o']], some [],
        [⟨.raw, ["&-x:is(&, b) ~ *:hover".toList], none,
          [⟨.sibling, [], none, []⟩]⟩]⟩]⟩]⟩ =
      .ok [⟨[⟨[.element "ul".toList], .child⟩,
        ⟨[.element "li".toList], .descendant⟩,
        ⟨[.className ['c'], .className "\\--o-x".toList,
          .selectorFunction "is".toList
            [[⟨[.parent], .none⟩], [⟨[.element ['b']], .none⟩]]], .general⟩,
        ⟨[.universal, .pseudoClass "hover".toList], .adjacent⟩,
        ⟨[.universal, .pseudoClass "hover".toList], .none⟩],
        ⟨0, 4, 3⟩, []⟩] := by
    decide +kernel
  have hupper := (isOrderly_named _ _).1 _ hrules _ (List.mem_singleton_self _)
    _ (List.mem_singleton_self _)
  have hlower := (isOrderly_named _ _).2 _ hleaves _ (List.mem_singleton_self _)
  exact ⟨_, _, _, rfl, hrules, hleaves, by decide +kernel, by decide +kernel,
    hupper, hlower⟩

end Declaration

end Cascade
