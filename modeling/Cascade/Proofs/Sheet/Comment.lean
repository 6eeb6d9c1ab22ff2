import Mathlib.Data.List.Chain
import Cascade.Sheet.Comment

/-!
# Where a comment opens

A text without a slash in front of a star is left as it is, and any other loses a
star.  Pieces that do not start with a star and open no comment open none
together, whatever stands in front of them.  In front of a mark that is neither
slash nor star a comment is closed or still open, and only an open one takes the
mark along.
-/

namespace Cascade.Sheet

open List (Sublist)

/-! ## One character at a time -/

theorem stripComments_nil : stripComments [] = [] := by
  rw [stripComments]

theorem stripComments_open (rest : Text) :
    stripComments ('/' :: '*' :: rest) = skipComment rest := by
  rw [stripComments]

theorem stripComments_cons {c : Char} {rest : Text}
    (h : ¬ (c = '/' ∧ rest.head? = some '*')) :
    stripComments (c :: rest) = c :: stripComments rest := by
  rw [stripComments.eq_def]
  split <;> simp_all

theorem skipComment_close (rest : Text) :
    skipComment ('*' :: '/' :: rest) = stripComments rest := by
  rw [skipComment]

theorem skipComment_cons {c : Char} {rest : Text}
    (h : ¬ (c = '*' ∧ rest.head? = some '/')) :
    skipComment (c :: rest) = skipComment rest := by
  rw [skipComment.eq_def]
  split <;> simp_all

/-- Two characters that do not meet where a text starts do not meet there with more text
behind it either. -/
theorem head?_append_ne {c first next : Char} {text behind : Text}
    (h : ¬ (c = first ∧ text.head? = some next)) (hbehind : behind.head? ≠ some next) :
    ¬ (c = first ∧ (text ++ behind).head? = some next) := by
  rintro ⟨rfl, hhead⟩
  cases text with
  | nil => exact hbehind hhead
  | cons d text => exact h ⟨rfl, hhead⟩

def HasComment (text : Text) : Prop :=
  ['/', '*'] <:+: text

instance (text : Text) : Decidable (HasComment text) :=
  inferInstanceAs (Decidable (['/', '*'] <:+: text))

theorem not_hasComment_iff {text : Text} :
    ¬ HasComment text ↔ text.IsChain fun c d => ¬ (c = '/' ∧ d = '*') := by
  rw [List.isChain_iff_forall_rel_of_append_cons_cons]
  constructor
  · rintro h c d front back rfl ⟨rfl, rfl⟩
    exact h ⟨front, back, by simp⟩
  · rintro h ⟨front, back, rfl⟩
    exact h (List.append_assoc front ['/', '*'] back) ⟨rfl, rfl⟩

theorem hasComment_cons_iff {c : Char} {text : Text} :
    HasComment (c :: text) ↔ c = '/' ∧ text.head? = some '*' ∨ HasComment text := by
  have hhead : ['/', '*'] <+: c :: text ↔ c = '/' ∧ text.head? = some '*' := by
    cases text <;> simp [eq_comm]
  rw [HasComment, List.infix_cons_iff, hhead, HasComment]

theorem HasComment.mono {text inner : Text} (h : HasComment inner)
    (hinner : inner <:+: text) : HasComment text :=
  List.IsInfix.trans h hinner

/-- A text without comments is left as it is in front of anything but a star. -/
theorem stripComments_append {first second : Text} (hfirst : ¬ HasComment first)
    (hsecond : second.head? ≠ some '*') :
    stripComments (first ++ second) = first ++ stripComments second := by
  induction first with
  | nil => rfl
  | cons c rest ih =>
      rw [hasComment_cons_iff, not_or] at hfirst
      obtain ⟨hopen, hrest⟩ := hfirst
      rw [List.cons_append, stripComments_cons (head?_append_ne hopen hsecond), ih hrest,
        List.cons_append]

/-- A text without comments is left as it is. -/
theorem stripComments_eq_self {text : Text} (h : ¬ HasComment text) :
    stripComments text = text := by
  have hwhole := stripComments_append h (show ([] : Text).head? ≠ some '*' by simp)
  rwa [List.append_nil, stripComments_nil, List.append_nil] at hwhole

/-! ## Texts that open no comment -/

/-- A text that opens no comment, whatever it is put behind. -/
def OpensNoComment (text : Text) : Prop :=
  text.head? ≠ some '*' ∧ ¬ HasComment text

theorem opensNoComment_nil : OpensNoComment [] :=
  ⟨by simp, by simp [HasComment]⟩

theorem not_hasComment_append {first second : Text} (hfirst : ¬ HasComment first)
    (hsecond : OpensNoComment second) : ¬ HasComment (first ++ second) := by
  obtain ⟨hhead, hsecond⟩ := hsecond
  rw [not_hasComment_iff] at hfirst hsecond ⊢
  exact hfirst.append hsecond fun c _ d hd hboth => hhead (hboth.2 ▸ hd)

theorem OpensNoComment.append {first second : Text} (hfirst : OpensNoComment first)
    (hsecond : OpensNoComment second) : OpensNoComment (first ++ second) := by
  refine ⟨?_, not_hasComment_append hfirst.2 hsecond⟩
  cases first with
  | nil => exact hsecond.1
  | cons c first => exact hfirst.1

theorem OpensNoComment.flatMap {α : Type} {pieces : List α} {text : α → Text}
    (h : ∀ piece ∈ pieces, OpensNoComment (text piece)) :
    OpensNoComment (pieces.flatMap text) := by
  induction pieces with
  | nil => exact opensNoComment_nil
  | cons piece pieces ih =>
      rw [List.forall_mem_cons] at h
      exact h.1.append (ih h.2)

/-- A comment needs a star. -/
theorem opensNoComment_of_not_mem {text : Text} (h : '*' ∉ text) : OpensNoComment text :=
  ⟨fun hhead => h (List.mem_of_mem_head? hhead),
    fun ⟨_, _, heq⟩ => h (by simp [← heq])⟩

/-- Behind anything but a slash a star opens nothing. -/
theorem opensNoComment_cons {c : Char} {text : Text} (hslash : c ≠ '/') (hstar : c ≠ '*')
    (h : ¬ HasComment text) : OpensNoComment (c :: text) := by
  refine ⟨by simpa using hstar, ?_⟩
  rw [not_hasComment_iff] at h ⊢
  exact h.cons fun d _ hboth => hslash hboth.1

/-! ## What is left of a text with comments -/

mutual

theorem stripComments_sublist (text : Text) :
    Sublist (stripComments text) text := by
  match text with
  | [] => rw [stripComments]
  | [c] =>
      rw [stripComments_cons (by simp)]
      exact (stripComments_sublist []).cons_cons c
  | c :: d :: rest =>
      by_cases hopen : c = '/' ∧ d = '*'
      · obtain ⟨rfl, rfl⟩ := hopen
        rw [stripComments_open]
        exact ((skipComment_sublist rest).cons '*').cons '/'
      · rw [stripComments_cons (by simpa using hopen)]
        exact (stripComments_sublist (d :: rest)).cons_cons c

theorem skipComment_sublist (text : Text) :
    Sublist (skipComment text) text := by
  match text with
  | [] => rw [skipComment]
  | [c] =>
      rw [skipComment_cons (by simp)]
      exact (skipComment_sublist []).cons c
  | c :: d :: rest =>
      by_cases hclose : c = '*' ∧ d = '/'
      · obtain ⟨rfl, rfl⟩ := hclose
        rw [skipComment_close]
        exact ((stripComments_sublist rest).cons '/').cons '*'
      · rw [skipComment_cons (by simpa using hclose)]
        exact (skipComment_sublist (d :: rest)).cons c

end

/-- Taking comments out takes stars out. -/
theorem count_stripComments_lt {text : Text} (h : HasComment text) :
    (stripComments text).count '*' < text.count '*' := by
  induction text with
  | nil => exact absurd h opensNoComment_nil.2
  | cons c rest ih =>
      by_cases hopen : c = '/' ∧ rest.head? = some '*'
      · obtain ⟨rfl, hhead⟩ := hopen
        obtain ⟨tail, rfl⟩ := List.head?_eq_some_iff.mp hhead
        have hle := (skipComment_sublist tail).count_le '*'
        rw [stripComments_open, List.count_cons_of_ne (by decide),
          List.count_cons_self]
        exact Nat.lt_succ_of_le hle
      · have hrest : HasComment rest := (hasComment_cons_iff.mp h).resolve_left hopen
        rw [stripComments_cons hopen, List.count_cons, List.count_cons]
        exact Nat.add_lt_add_right (ih hrest) _

section Mark

variable {mark : Char} (hslash : mark ≠ '/') (hstar : mark ≠ '*') (rest : Text)
include hslash hstar

mutual

/-- A mark outside comments stays, and with it what stands behind it. -/
theorem stripComments_append_mark (text : Text) :
    stripComments (text ++ mark :: rest) =
        stripComments text ++ mark :: stripComments rest ∨
      ∃ kept, Sublist kept text ∧
        stripComments (text ++ mark :: rest) = kept ++ skipComment rest := by
  match text with
  | [] =>
      rw [List.nil_append, stripComments_cons (by simp [hslash])]
      exact .inl (by rw [stripComments]; rfl)
  | c :: text =>
      by_cases hopen : c = '/' ∧ text.head? = some '*'
      · obtain ⟨rfl, hhead⟩ := hopen
        obtain ⟨tail, rfl⟩ := List.head?_eq_some_iff.mp hhead
        rw [List.cons_append, List.cons_append, stripComments_open, stripComments_open]
        exact (skipComment_append_mark tail).imp_right fun ⟨kept, hkept, hlost⟩ =>
          ⟨kept, (hkept.cons '*').cons '/', hlost⟩
      · rw [List.cons_append, stripComments_cons hopen,
          stripComments_cons (head?_append_ne hopen (by simp [hstar]))]
        rcases stripComments_append_mark text with hclosed | ⟨kept, hkept, hlost⟩
        · exact .inl (by rw [hclosed]; rfl)
        · exact .inr ⟨c :: kept, hkept.cons_cons c, by rw [hlost]; rfl⟩
termination_by text.length

theorem skipComment_append_mark (text : Text) :
    skipComment (text ++ mark :: rest) =
        skipComment text ++ mark :: stripComments rest ∨
      ∃ kept, Sublist kept text ∧
        skipComment (text ++ mark :: rest) = kept ++ skipComment rest := by
  match text with
  | [] =>
      rw [List.nil_append, skipComment_cons (by simp [hstar])]
      exact .inr ⟨[], .slnil, rfl⟩
  | c :: text =>
      by_cases hclose : c = '*' ∧ text.head? = some '/'
      · obtain ⟨rfl, hhead⟩ := hclose
        obtain ⟨tail, rfl⟩ := List.head?_eq_some_iff.mp hhead
        rw [List.cons_append, List.cons_append, skipComment_close, skipComment_close]
        exact (stripComments_append_mark tail).imp_right fun ⟨kept, hkept, hlost⟩ =>
          ⟨kept, (hkept.cons '/').cons '*', hlost⟩
      · rw [List.cons_append, skipComment_cons hclose,
          skipComment_cons (head?_append_ne hclose (by simp [hslash]))]
        exact (skipComment_append_mark text).imp_right fun ⟨kept, hkept, hlost⟩ =>
          ⟨kept, hkept.cons c, hlost⟩
termination_by text.length

end

end Mark

end Cascade.Sheet
