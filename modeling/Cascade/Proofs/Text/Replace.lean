import Cascade.Proofs.Ident.Name
import Cascade.Proofs.Text.Balanced
import Cascade.Proofs.Text.Trim

/-!
# Replacing a part of a group

A group stays closed when a part of it is replaced by a text that opens and
closes the same.  Nothing else may be asked of the parts: a quote in one of them
can be answered by a quote in another.  Names change nothing wherever they
stand, and white space may be taken away in front of a character without a
meaning of its own, even if a backslash has taken the first of it along.
-/

namespace Cascade.Enclosed.Nesting

open Text (isLineEnd)

/-- Wherever the first text leads, the second leads as well, and no backslash is
left over there. -/
def Replaces (second first : Text) : Prop :=
  ∀ stack after, run ⟨stack, false⟩ first = some after →
    after.escaped = false ∧ run ⟨stack, false⟩ second = some after

/-- A text that changes nothing, not even inside strings. -/
def KeepsStack (text : Text) : Prop :=
  ∀ stack, run ⟨stack, false⟩ text = some ⟨stack, false⟩

theorem keepsStack_nil : KeepsStack [] := fun _ => rfl

theorem KeepsStack.append {first second : Text} (hfirst : KeepsStack first)
    (hsecond : KeepsStack second) : KeepsStack (first ++ second) := by
  intro stack
  rw [run_append, hfirst stack]
  exact hsecond stack

theorem keepsStack_of_plain {text : Text} (h : ∀ c ∈ text, isPlain c = true) :
    KeepsStack text :=
  run_plain h

theorem keepsStack_char {c : Char} (hc : isPlain c = true) : KeepsStack [c] :=
  run_char hc

theorem KeepsStack.cons {c : Char} {text : Text} (hc : isPlain c = true)
    (htext : KeepsStack text) : KeepsStack (c :: text) :=
  (keepsStack_char hc).append htext

theorem KeepsStack.outside {text : Text} (h : KeepsStack text) : KeepsStackOutside text :=
  fun stack _ => h stack

theorem KeepsStack.replaces {first second : Text} (hfirst : KeepsStack first)
    (hsecond : KeepsStack second) : Replaces second first := by
  intro stack after hrun
  rw [hfirst stack] at hrun
  cases hrun
  exact ⟨rfl, hsecond stack⟩

theorem Replaces.append {first second first' second' : Text}
    (h : Replaces second first) (h' : Replaces second' first') :
    Replaces (second ++ second') (first ++ first') := by
  intro stack after hrun
  obtain ⟨⟨middle, escaped⟩, hfirst, hrest⟩ := run_append_eq_some_iff.mp hrun
  obtain ⟨rfl, hsecond⟩ := h stack _ hfirst
  obtain ⟨hescaped, hrest⟩ := h' middle after hrest
  exact ⟨hescaped, run_append_eq_some_iff.mpr ⟨_, hsecond, hrest⟩⟩

/-- A balanced text may be replaced by what leads the same way. -/
theorem Replaces.balanced {first second : Text} (h : Replaces second first)
    (hfirst : Balanced first) : Balanced second := by
  rw [balanced_iff_keepsStackOutside, keepsStackOutside_iff] at hfirst ⊢
  exact (h [] _ hfirst).2

/-- No backslash is left over behind a balanced text, wherever it stands. -/
theorem replaces_self_of_balanced {content : Text} (h : Balanced content) :
    Replaces content content := by
  intro stack after hrun
  rw [balanced_iff_keepsStackOutside, keepsStackOutside_iff] at h
  exact ⟨(run_escaped_congr h hrun).symm, hrun⟩

/-! ## Names -/

theorem isPlain_of_isNameChar {c : Char} (h : Ident.isNameChar c = true) :
    isPlain c = true := by
  rw [isPlain_iff]
  refine ⟨?_, ?_, ?_, ?_, ?_⟩ <;> rintro rfl <;> revert h <;> decide

theorem not_isLineEnd_of_isHexDigit {c : Char} (h : Ident.isHexDigit c = true) :
    isLineEnd c = false := by
  apply Bool.eq_false_iff.mpr
  intro hend
  simp only [isLineEnd, Bool.or_eq_true, beq_iff_eq] at hend
  rcases hend with (rfl | rfl) | rfl <;> revert h <;> decide

theorem keepsStack_escape {c : Char} {rest : Text} (hend : isLineEnd c = false)
    (hrest : ∀ c ∈ rest, isPlain c = true) : KeepsStack ('\\' :: c :: rest) := by
  intro stack
  rw [run_escape hend]
  exact run_plain hrest stack

theorem keepsStack_hexEscape {digits rest : Text} (hne : digits ≠ [])
    (hdigits : ∀ c ∈ digits, Ident.isHexDigit c = true)
    (hrest : ∀ c ∈ rest, isPlain c = true) :
    KeepsStack ('\\' :: (digits ++ rest)) := by
  cases digits with
  | nil => exact absurd rfl hne
  | cons digit digits =>
      rw [List.forall_mem_cons] at hdigits
      apply keepsStack_escape (not_isLineEnd_of_isHexDigit hdigits.1)
      intro c hc
      rcases List.mem_append.mp hc with hc | hc
      · exact isPlain_of_isNameChar
          (Ident.isNameChar_of_isHexDigit (hdigits.2 c hc))
      · exact hrest c hc

theorem keepsStack_unit {input unit rest : Text}
    (h : Ident.unit? input = some (unit, rest)) : KeepsStack unit := by
  rcases Ident.unit?_eq_some_iff.mp h with ⟨inner, tail, _, rfl, htail⟩ |
    ⟨c, _, rfl, hname⟩
  · rcases Ident.escapeTail?_eq_some_iff.mp htail with
      ⟨digits, hne, hsplit, rfl⟩ | ⟨hne, hsplit, _⟩ | ⟨c, _, hend, rfl⟩
    · have hdigits := (Ident.splitHex_eq_iff.mp hsplit).2.1
      exact keepsStack_hexEscape hne hdigits (List.forall_mem_singleton.mpr (by decide))
    · have hdigits := (Ident.splitHex_eq_iff.mp hsplit).2.1
      have hkeeps : KeepsStack ('\\' :: (tail ++ [])) :=
        keepsStack_hexEscape hne hdigits (by simp)
      rwa [List.append_nil] at hkeeps
    · exact keepsStack_escape hend (by simp)
  · apply keepsStack_of_plain
    simpa using isPlain_of_isNameChar hname

/-- A name neither opens nor closes anything. -/
theorem keepsStack_of_isName {name : Text} (h : Ident.IsName name) :
    KeepsStack name := by
  have hrun := (Ident.isName_iff.mp h).1
  clear h
  induction hrun with
  | nil => exact fun stack => rfl
  | cons hunit _ ih => exact (keepsStack_unit hunit).append ih

/-! ## White space -/

theorem keepsStack_spaces {spaces : Text}
    (h : ∀ c ∈ spaces, Text.isSpace c = true) : KeepsStack spaces :=
  keepsStack_of_plain fun c hc => isPlain_of_isSpace (h c hc)

theorem replaces_char {c : Char} (hc : c ≠ '\\') : Replaces [c] [c] := by
  intro stack after hrun
  refine ⟨?_, hrun⟩
  obtain ⟨middle, hstep, hrun⟩ := run_cons_eq_some_iff.mp hrun
  cases hrun
  rw [step_of_ne hc] at hstep
  obtain ⟨_, _, rfl⟩ := Option.map_eq_some_iff.mp hstep
  rfl

/-- Plain characters settle a backslash in front of them. -/
theorem eq_of_run_plain {state after : Nesting} {c : Char} {text : Text}
    (hplain : ∀ d ∈ c :: text, isPlain d = true)
    (hrun : run state (c :: text) = some after) :
    after = ⟨state.stack, false⟩ := by
  obtain ⟨stack, escaped⟩ := state
  cases escaped with
  | false =>
      rw [run_plain hplain] at hrun
      exact (Option.some.inj hrun).symm
  | true =>
      obtain ⟨middle, hstep, hrun⟩ := run_cons_eq_some_iff.mp hrun
      rw [(step_escaped_eq_some hstep).2, run_plain] at hrun
      · exact (Option.some.inj hrun).symm
      · exact fun d hd => hplain d (List.mem_cons_of_mem _ hd)

theorem run_mark {c : Char} (hplain : isPlain c = true)
    (hend : isLineEnd c = false) (state : Nesting) :
    run state [c] = some ⟨state.stack, false⟩ := by
  obtain ⟨stack, escaped⟩ := state
  cases escaped with
  | false => exact run_char hplain stack
  | true =>
      rw [run_cons, step_escaped stack hend]
      rfl

/-- A text may be trimmed in front of a mark, even if its white space was
escaped: the backslash then takes the mark along instead. -/
theorem replaces_trim_append {mark mark' : Char} (hmark : isPlain mark = true)
    (hmark' : isPlain mark' = true) (hend : isLineEnd mark' = false)
    (text : Text) : Replaces (Text.trim text ++ [mark']) (text ++ [mark]) := by
  intro stack after hrun
  obtain ⟨front, back, htext, hfront, hback⟩ := Text.exists_trim text
  rw [htext, List.append_assoc, List.append_assoc, run_append,
    keepsStack_spaces hfront, Option.bind_some] at hrun
  obtain ⟨middle, hmiddle, hrun⟩ := run_append_eq_some_iff.mp hrun
  obtain rfl : after = ⟨middle.stack, false⟩ := by
    cases back with
    | nil => exact eq_of_run_plain (by simpa using hmark) hrun
    | cons c back =>
        apply eq_of_run_plain _ hrun
        intro d (hd : d ∈ c :: back ++ [mark])
        rcases List.mem_append.mp hd with hd | hd
        · exact isPlain_of_isSpace (hback d hd)
        · rwa [List.mem_singleton.mp hd]
  refine ⟨rfl, ?_⟩
  rw [run_append, hmiddle, Option.bind_some, run_mark hmark' hend]

/-- A text that is balanced without its outer white space may be trimmed
everywhere. -/
theorem replaces_trim {text : Text} (h : Balanced (Text.trim text)) :
    Replaces (Text.trim text) text := by
  obtain ⟨front, back, htext, hfront, hback⟩ := Text.exists_trim text
  have hwhole := ((keepsStack_spaces hfront).replaces keepsStack_nil).append
    ((replaces_self_of_balanced h).append ((keepsStack_spaces hback).replaces keepsStack_nil))
  rwa [List.append_nil, List.nil_append, ← List.append_assoc, ← htext]
    at hwhole

end Cascade.Enclosed.Nesting
