import Cascade.Naming.Fragment
import Cascade.Proofs.Naming.Draft
import Cascade.Proofs.Selector.RoundTrip

/-!
# What a fragment adds

A fragment is a selector that was read, so it is assembled.  Glued behind the
current element, or nested below it, it leaves an assembled selector, and the
tally grows by the weight of what was added.  A suffix changes no weight.
-/

namespace Cascade.Draft

open Selector (Assembled)

variable {draft next joined : Draft}

theorem extendClass_spec (hassembled : Assembled Simple.IsSpelled draft.links)
    {suffix : Text} (hsuffix : Ident.IsName suffix)
    (hextend : draft.extendClass suffix = .ok next) :
    Assembled Simple.IsSpelled next.links ∧ next.tally = draft.tally ∧
      Selector.specificity next.links = Selector.specificity draft.links := by
  unfold Draft.extendClass at hextend
  obtain ⟨front, last, hlinks⟩ := hassembled.exists_concat
  rw [hlinks] at hassembled hextend ⊢
  rw [List.getLast?_concat] at hextend
  split at hextend
  · rename_i name hlast
    obtain ⟨conditions, hcompound⟩ := List.getLast?_eq_some_iff.mp hlast
    cases hextend
    have hjoined := hassembled.last.joined last (by simp)
    have hpieces := hassembled.last.pieces last (by simp)
    rw [hcompound] at hjoined hpieces
    rw [List.forall_mem_append, List.forall_mem_singleton] at hpieces
    obtain ⟨text, hname⟩ := hpieces.2
    have hlonger : Simple.IsSpelled (.className (name ++ suffix)) := by
      cases hname with
      | className hname => exact ⟨_, .className (hname.append hsuffix)⟩
    have hextended := hassembled.replace_last hassembled.last _
      (hjoined.replace_class (name ++ suffix))
      (List.forall_mem_append.mpr
        ⟨hpieces.1, List.forall_mem_singleton.mpr hlonger⟩)
    simp only [Selector.mapLast_concat, hcompound, List.dropLast_concat]
    refine ⟨hextended, trivial, ?_⟩
    rw [Selector.specificity_concat, Selector.specificity_concat, hcompound,
      Compound.specificity_append, Compound.specificity_append]
    rfl
  · cases hextend

theorem appendConditions_spec
    (hassembled : Assembled Simple.IsSpelled draft.links)
    (hcounted : draft.tally.specificity = Selector.specificity draft.links)
    {conditions : Compound} {first : Link} {rest : Selector}
    (helements : ∀ simple ∈ conditions, simple.isNamedElement = false)
    (hpieces : ∀ simple ∈ conditions, simple.IsSpelled)
    (hrest : Assembled Simple.IsSpelled (first :: rest)) :
    Assembled Simple.IsSpelled
        ((draft.appendConditions conditions first.combinator).links ++ rest) ∧
      (draft.appendConditions conditions first.combinator).tally.specificity =
        Selector.specificity
          (draft.appendConditions conditions first.combinator).links := by
  constructor
  · obtain ⟨front, last, hlinks⟩ := hassembled.exists_concat
    rw [hlinks] at hassembled
    unfold Draft.appendConditions
    rw [hlinks, Selector.mapLast_concat, List.append_assoc]
    exact hassembled.replace_last hrest _
      ((hassembled.last.joined last (by simp)).append helements)
      (List.forall_mem_append.mpr ⟨hassembled.last.pieces last (by simp), hpieces⟩)
  · change (draft.tally.countCompound conditions).specificity =
      Selector.specificity (draft.links.mapLast _)
    rw [Selector.specificity_mapLast
      (fun link => Compound.specificity_append link.compound conditions)
      hassembled.ne_nil, Tally.specificity_countCompound, hcounted]

/-- No named element is among conditions without an element. -/
theorem isNamedElement_of_any {conditions : Compound}
    (h : ¬ conditions.any Simple.isElement = true) :
    ∀ simple ∈ conditions, simple.isNamedElement = false := by
  intro simple hsimple
  cases simple with
  | element name =>
      exact absurd (List.any_eq_true.mpr ⟨_, hsimple, rfl⟩) h
  | _ => rfl

/-- Nothing is lost in front of a suffix, and nothing added. -/
theorem splitSuffix_eq {behind conditions : Compound} {suffix : Option Text}
    (h : splitSuffix behind = (suffix, conditions)) :
    behind = (suffix.map Simple.element).toList ++ conditions := by
  unfold splitSuffix at h
  split at h <;> cases h <;> rfl

/-- The element that a fragment continues, with its suffix if it has one. -/
theorem extendSuffix_spec
    (hassembled : Assembled Simple.IsSpelled draft.links)
    (hcounted : draft.tally.specificity = Selector.specificity draft.links)
    {suffix : Option Text} (hsuffix : ∀ name ∈ suffix, Ident.IsName name)
    (hextend : suffix.elim (.ok draft) draft.extendClass = .ok next) :
    Assembled Simple.IsSpelled next.links ∧
      next.tally.specificity = Selector.specificity next.links := by
  cases suffix with
  | none =>
      cases hextend
      exact ⟨hassembled, hcounted⟩
  | some name =>
      obtain ⟨hnext, htally, hweight⟩ :=
        extendClass_spec hassembled (hsuffix name rfl) hextend
      rw [htally, hweight]
      exact ⟨hnext, hcounted⟩

theorem Built.glue (h : draft.Built Simple.IsSpelled) {first : Link}
    {rest : Selector} (hrest : Assembled Simple.IsSpelled (first :: rest))
    (hglue : draft.glue first = .ok joined) :
    Assembled Simple.IsSpelled (joined.links ++ rest) ∧
      joined.tally.specificity = Selector.specificity joined.links := by
  have hpieces := hrest.pieces first (by simp)
  unfold Draft.glue at hglue
  split at hglue
  · cases hglue
  · rename_i hlinks
    have hassembled := h.assembled_of_ne_nil (by simpa using hlinks)
    split at hglue
    · rename_i behind hcompound
      rw [hcompound, List.forall_mem_cons] at hpieces
      split at hglue
      · cases hglue
      · cases hsplit : splitSuffix behind with
        | mk suffix conditions =>
            rw [splitSuffix_eq hsplit, List.forall_mem_append] at hpieces
            simp only [hsplit] at hglue
            split at hglue
            · cases hglue
            · rename_i extended hextend
              split at hglue
              · cases hglue
              · rename_i helements
                cases hglue
                have hsuffix : ∀ name ∈ suffix, Ident.IsName name := by
                  rintro name rfl
                  obtain ⟨text, hspells⟩ := hpieces.2.1 (.element name) (by simp)
                  cases hspells with
                  | element hname => exact hname
                obtain ⟨hextended, hcounted⟩ :=
                  extendSuffix_spec hassembled h.counted hsuffix hextend
                exact appendConditions_spec hextended hcounted
                  (isNamedElement_of_any helements) hpieces.2.2 hrest
    · cases hglue

theorem Built.nest (h : draft.Built Simple.IsSpelled) {first : Link}
    {rest : Selector} (hrest : Assembled Simple.IsSpelled (first :: rest))
    (hnest : draft.nest first = .ok joined) :
    Assembled Simple.IsSpelled (joined.links ++ rest) ∧
      joined.tally.specificity = Selector.specificity joined.links := by
  obtain ⟨compound, combinator⟩ := first
  unfold Draft.nest at hnest
  split at hnest
  · cases hnest
  · cases hnest
    simp only [Selector.push, Selector.mapLast_concat]
    constructor
    · rw [List.append_assoc]
      exact Assembled.behind h.assembled (by simp) hrest
    · rw [Tally.specificity_countCompound, h.counted, Selector.specificity_concat,
        Selector.specificity_mapLast_combinator]

/-- A selector that has a text is added to a draft that is built so far. -/
theorem Built.addSelector (h : draft.Built Simple.IsSpelled)
    {selector : Selector} (hselector : Assembled Simple.IsSpelled selector)
    (hadd : draft.addSelector selector = .ok next) :
    next.Built Simple.IsSpelled ∧ next.links ≠ [] := by
  cases selector with
  | nil => exact absurd rfl hselector.ne_nil
  | cons first rest =>
      simp only [Draft.addSelector] at hadd
      split at hadd
      · cases hadd
      · split at hadd
        · cases hadd
        · obtain ⟨joined, hjoined, rfl⟩ := exists_of_map_eq_ok hadd
          have hspec : Assembled Simple.IsSpelled (joined.links ++ rest) ∧
              joined.tally.specificity = Selector.specificity joined.links := by
            split at hjoined
            · exact h.glue hselector hjoined
            · exact h.nest hselector hjoined
          refine ⟨⟨.inr hspec.1, (absurd · Bool.false_ne_true),
            fun _ => hspec.1.ne_nil, ?_⟩, hspec.1.ne_nil⟩
          change (joined.tally.countSelector rest).specificity =
            Selector.specificity (joined.links ++ rest)
          rw [Tally.specificity_countSelector, hspec.2,
            Selector.specificity_append]

theorem Built.addFragment (h : draft.Built Simple.IsSpelled) {fragment : Text}
    (hadd : draft.addFragment fragment = .ok next) :
    next.Built Simple.IsSpelled ∧ next.links ≠ [] := by
  unfold Draft.addFragment at hadd
  split at hadd
  · rename_i selector hselector
    exact h.addSelector (Selector.spells_of_ofText hselector).assembled hadd
  · cases hadd

/-- Every declaration that can be applied leaves a built draft with a link.
Without fragments all conditions are plain ones. -/
theorem Built.apply {holds : Simple → Prop} (h : draft.Built holds)
    (hplain : ∀ simple : Simple, simple.IsPlain → holds simple)
    {symbols : Symbols} {kind : Kind}
    (hraw : kind = .raw → ∀ simple, holds simple ↔ simple.IsSpelled)
    {name : Text} (happly : draft.apply symbols kind name = .ok next) :
    next.Built holds ∧ next.links ≠ [] := by
  have hclass (text : Text) (htext : Ident.IsClosed text) :
      holds (.className text) := hplain _ (.className htext)
  cases kind with
  | component => exact h.openBlock hclass happly
  | part => exact h.openPart hclass happly
  | option => exact h.addOption hclass happly
  | tweak => exact (h.withScope _).openBlock hclass happly
  | location => exact h.openBlock hclass happly
  | raw =>
      obtain rfl : holds = Simple.IsSpelled :=
        funext fun simple => propext (hraw rfl simple)
      exact h.addFragment happly
  | sibling => exact h.repeatLast happly

end Cascade.Draft
