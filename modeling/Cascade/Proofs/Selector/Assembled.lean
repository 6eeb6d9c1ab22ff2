import Cascade.Naming.Draft
import Cascade.Proofs.Selector.Printable

/-!
# Putting selectors together

Selectors under construction are changed at their last link only.  Links may be
put in front of others if each carries a combinator, and conditions behind
others if none of them is a named element.  A selector that is assembled this
way from conditions that have a text can be printed, unless an argument is not
its own text any more.
-/

namespace Cascade

def Simple.IsSpelled (simple : Simple) : Prop := ∃ text, simple.Spells text

/-- A class, an id or a named element whose name is closed. -/
inductive Simple.IsPlain : Simple → Prop
  | element {name : Text} : Ident.IsClosed name → Simple.IsPlain (.element name)
  | className {name : Text} : Ident.IsClosed name →
      Simple.IsPlain (.className name)
  | id {name : Text} : Ident.IsClosed name → Simple.IsPlain (.id name)

theorem Simple.IsPlain.isSpelled {simple : Simple} (h : simple.IsPlain) :
    simple.IsSpelled := by
  cases h with
  | element hname => exact ⟨_, .element hname.isName⟩
  | className hname => exact ⟨_, .className hname.isName⟩
  | id hname => exact ⟨_, .id hname.isName⟩

namespace Compound

/-- Conditions stay joined if others follow that name no element. -/
theorem Joined.append {first second : Compound} (h : Joined first)
    (hsecond : ∀ simple ∈ second, simple.isNamedElement = false) :
    Joined (first ++ second) := by
  fun_induction Joined first with
  | case1 => exact h.elim
  | case2 simple =>
      clear h
      induction second generalizing simple with
      | nil => trivial
      | cons next second ih =>
          rw [List.forall_mem_cons] at hsecond
          exact ⟨fun _ => hsecond.1, ih hsecond.2 next⟩
  | case3 simple next rest ih => exact ⟨h.1, ih h.2⟩

theorem Joined.of_append {first second : Compound}
    (h : Joined (first ++ second)) (hne : first ≠ []) : Joined first := by
  fun_induction Joined first with
  | case1 => exact hne rfl
  | case2 => trivial
  | case3 simple next rest ih => exact ⟨h.1, ih h.2 (by simp)⟩

/-- A class may stand in the place of another one. -/
theorem Joined.replace_class {first : Compound} {name : Text}
    (h : Joined (first ++ [.className name])) (other : Text) :
    Joined (first ++ [.className other]) := by
  by_cases hne : first = []
  · rw [hne]
    trivial
  · exact (h.of_append hne).append (by simp [Simple.isNamedElement])

end Compound

namespace Selector

/-- Links stay linked if others stand in front of them that carry a
combinator each. -/
theorem linked_append {front rest : Selector} (hne : rest ≠ []) :
    Linked (front ++ rest) ↔
      (∀ link ∈ front, link.combinator ≠ .none) ∧ Linked rest := by
  induction front with
  | nil => simp
  | cons link front ih =>
      obtain ⟨next, tail, htail⟩ :=
        List.exists_cons_of_ne_nil (List.append_ne_nil_of_right_ne_nil front hne)
      rw [List.forall_mem_cons, and_assoc, ← ih, List.cons_append, htail]
      rfl

/-- Which compound stands first does not matter for being linked. -/
theorem Linked.replace_compound {compound : Compound} {combinator : Combinator}
    {rest : Selector} (h : Linked (⟨compound, combinator⟩ :: rest))
    (other : Compound) : Linked (⟨other, combinator⟩ :: rest) := by
  cases rest with
  | nil => exact h
  | cons next rest => exact h

/-- A selector whose compounds are joined and linked, with only such conditions
as `holds` admits. -/
structure Assembled (holds : Simple → Prop) (selector : Selector) : Prop where
  linked : Linked selector
  joined : ∀ link ∈ selector, Compound.Joined link.compound
  pieces : ∀ link ∈ selector, ∀ simple ∈ link.compound, holds simple

variable {holds : Simple → Prop}

theorem Assembled.ne_nil {selector : Selector} (h : Assembled holds selector) :
    selector ≠ [] := by
  rintro rfl
  exact h.linked

theorem Assembled.exists_concat {selector : Selector}
    (h : Assembled holds selector) : ∃ front last, selector = front ++ [last] :=
  ⟨_, _, (List.dropLast_concat_getLast h.ne_nil).symm⟩

/-- Assembled is a matter of the links in front and of the rest. -/
theorem assembled_append {front rest : Selector} (hne : rest ≠ []) :
    Assembled holds (front ++ rest) ↔
      (∀ link ∈ front, link.combinator ≠ .none ∧
        Compound.Joined link.compound ∧ ∀ simple ∈ link.compound, holds simple) ∧
      Assembled holds rest := by
  constructor
  · rintro ⟨hlinked, hjoined, hpieces⟩
    rw [linked_append hne] at hlinked
    rw [List.forall_mem_append] at hjoined hpieces
    exact ⟨fun link hlink =>
        ⟨hlinked.1 link hlink, hjoined.1 link hlink, hpieces.1 link hlink⟩,
      ⟨hlinked.2, hjoined.2, hpieces.2⟩⟩
  · rintro ⟨hfront, hlinked, hjoined, hpieces⟩
    refine ⟨(linked_append hne).mpr ⟨fun link hlink => (hfront link hlink).1, hlinked⟩,
      ?_, ?_⟩
    · exact List.forall_mem_append.mpr
        ⟨fun link hlink => (hfront link hlink).2.1, hjoined⟩
    · exact List.forall_mem_append.mpr
        ⟨fun link hlink => (hfront link hlink).2.2, hpieces⟩

/-- The compound at the front may be any that is joined. -/
theorem Assembled.replace_compound {link : Link} {rest : Selector}
    (h : Assembled holds (link :: rest)) {other : Compound}
    (hjoined : Compound.Joined other) (hpieces : ∀ simple ∈ other, holds simple) :
    Assembled holds (⟨other, link.combinator⟩ :: rest) := by
  obtain ⟨compound, combinator⟩ := link
  obtain ⟨hlinked, hjoined', hpieces'⟩ := h
  exact ⟨hlinked.replace_compound other,
    List.forall_mem_cons.mpr ⟨hjoined, (List.forall_mem_cons.mp hjoined').2⟩,
    List.forall_mem_cons.mpr ⟨hpieces, (List.forall_mem_cons.mp hpieces').2⟩⟩

theorem assembled_singleton {compound : Compound}
    (hjoined : Compound.Joined compound)
    (hpieces : ∀ simple ∈ compound, holds simple) :
    Assembled holds [⟨compound, .none⟩] :=
  ⟨rfl, List.forall_mem_singleton.mpr hjoined,
    List.forall_mem_singleton.mpr hpieces⟩

/-! ## The last link -/

/-- A further selector may be put behind any combinator. -/
theorem Assembled.behind {selector rest : Selector} {combinator : Combinator}
    (h : selector = [] ∨ Assembled holds selector) (hne : combinator ≠ .none)
    (hrest : Assembled holds rest) :
    Assembled holds
      (mapLast (fun last => { last with combinator := combinator }) selector ++
        rest) := by
  rcases h with rfl | h
  · exact hrest
  · obtain ⟨front, last, rfl⟩ := h.exists_concat
    obtain ⟨hfront, hlast⟩ := (assembled_append (by simp)).mp h
    rw [mapLast_concat, assembled_append hrest.ne_nil]
    refine ⟨List.forall_mem_append.mpr ⟨hfront, ?_⟩, hrest⟩
    exact List.forall_mem_singleton.mpr
      ⟨hne, hlast.joined last (by simp), hlast.pieces last (by simp)⟩

theorem Assembled.push {selector : Selector} {combinator : Combinator}
    {compound : Compound} (h : selector = [] ∨ Assembled holds selector)
    (hne : combinator ≠ .none) (hjoined : Compound.Joined compound)
    (hpieces : ∀ simple ∈ compound, holds simple) :
    Assembled holds (selector.push combinator compound) :=
  Assembled.behind h hne (assembled_singleton hjoined hpieces)

/-- The last compound may be any that is joined, and links may follow it. -/
theorem Assembled.replace_last {front rest : Selector} {link last : Link}
    (h : Assembled holds (front ++ [last])) (hrest : Assembled holds (link :: rest))
    (compound : Compound) (hjoined : Compound.Joined compound)
    (hpieces : ∀ simple ∈ compound, holds simple) :
    Assembled holds (front ++ ⟨compound, link.combinator⟩ :: rest) :=
  (assembled_append (by simp)).mpr
    ⟨((assembled_append (by simp)).mp h).1,
      hrest.replace_compound hjoined hpieces⟩

theorem Assembled.last {front : Selector} {last : Link}
    (h : Assembled holds (front ++ [last])) : Assembled holds [last] :=
  ((assembled_append (by simp)).mp h).2

/-- Any selector may get one more class. -/
theorem Assembled.addClass {selector : Selector}
    (h : Assembled holds selector) {name : Text} (hname : holds (.className name)) :
    Assembled holds (mapLast
      (fun last => { last with compound := last.compound ++ [.className name] })
      selector) := by
  obtain ⟨front, last, rfl⟩ := h.exists_concat
  rw [mapLast_concat]
  refine h.replace_last h.last _ ?_ ?_
  · exact (h.last.joined last (by simp)).append (by simp [Simple.isNamedElement])
  · exact List.forall_mem_append.mpr
      ⟨h.last.pieces last (by simp), List.forall_mem_singleton.mpr hname⟩

/-! ## Texts -/

/-- A selector that has a text is assembled. -/
theorem Spells.assembled {selector : Selector} {text : Text}
    (h : Spells selector text) : Assembled Simple.IsSpelled selector := by
  induction selector generalizing text with
  | nil => exact absurd rfl h.ne_nil
  | cons link rest ih =>
      have hlinked := h.linked
      cases h with
      | last hne hcompound =>
          exact assembled_singleton (hcompound.joined hne)
            fun simple => hcompound.exists_of_mem
      | cons hne hcompound _ _ hrest =>
          have hassembled := ih hrest
          exact ⟨hlinked,
            List.forall_mem_cons.mpr ⟨hcompound.joined hne, hassembled.joined⟩,
            List.forall_mem_cons.mpr
              ⟨fun simple => hcompound.exists_of_mem, hassembled.pieces⟩⟩

/-- What is assembled from conditions that have a text can be printed, if no
argument was changed. -/
theorem Assembled.printable {selector : Selector}
    (h : Assembled Simple.IsSpelled selector) (hintact : Intact selector) :
    selector.Printable := by
  rw [intact_iff] at hintact
  refine .intro h.linked h.joined fun link hlink simple hsimple => ?_
  obtain ⟨text, hspells⟩ := h.pieces link hlink simple hsimple
  exact (hspells.printable (hintact link hlink simple hsimple)).1

/-- What is assembled from plain conditions is well formed. -/
theorem Assembled.wellFormed {selector : Selector}
    (h : Assembled Simple.IsPlain selector) : selector.WellFormed := by
  refine .intro h.linked h.joined fun link hlink simple hsimple => ?_
  cases h.pieces link hlink simple hsimple with
  | element hname => exact .element hname
  | className hname => exact .className hname
  | id hname => exact .id hname

end Selector

end Cascade
