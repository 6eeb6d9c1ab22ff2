import Cascade.Text.Enclosed

/-!
# What is open at each character

The reader of a group looks for a closing parenthesis behind strings and inner
groups.  The same text can be gone through one character at a time, with a stack
of what is open and a note that a backslash stands in front.  A step looks at
one character only, so a text can be cut anywhere, also inside a string.  A text
is the content of a group exactly if it closes whatever it opens, and nothing
else.
-/

namespace Cascade.Enclosed

open Text (isLineEnd)

inductive Enclosure where
  | group
  | double
  | single
  deriving DecidableEq

namespace Enclosure

def closer : Enclosure → Char
  | .group => ')'
  | .double => '"'
  | .single => '\''

def ofOpener? (c : Char) : Option Enclosure :=
  if c = '(' then some .group
  else if c = '"' then some .double
  else if c = '\'' then some .single
  else none

end Enclosure

/-- Where a text stands: what is open, the innermost first, and whether a
backslash takes the next character along. -/
structure Nesting where
  stack : List Enclosure
  escaped : Bool
  deriving DecidableEq

namespace Nesting

def start : Nesting := ⟨[], false⟩

/-- What is open behind a character that is not escaped.  No group is left that
was not entered. -/
def turn (c : Char) : List Enclosure → Option (List Enclosure)
  | [] => if c = ')' then none else some (Enclosure.ofOpener? c).toList
  | inner :: outer =>
      if c = inner.closer then some outer
      else if inner = .group then
        some ((Enclosure.ofOpener? c).toList ++ inner :: outer)
      else some (inner :: outer)

/-- One character.  The end of a line cannot be escaped. -/
def step (state : Nesting) (c : Char) : Option Nesting :=
  if state.escaped then
    if isLineEnd c then none else some ⟨state.stack, false⟩
  else if c = '\\' then some ⟨state.stack, true⟩
  else (turn c state.stack).map fun stack => ⟨stack, false⟩

def run (state : Nesting) (text : Text) : Option Nesting :=
  text.foldlM step state

/-- Outside strings, parentheses and quotes have their meaning. -/
def Outside (stack : List Enclosure) : Prop :=
  ∀ inner ∈ stack.head?, inner = .group

@[simp]
theorem run_nil (state : Nesting) : run state [] = some state := rfl

theorem run_cons (state : Nesting) (c : Char) (text : Text) :
    run state (c :: text) = (step state c).bind fun after => run after text :=
  rfl

/-- A text is gone through piece by piece. -/
theorem run_append (state : Nesting) (first second : Text) :
    run state (first ++ second) =
      (run state first).bind fun after => run after second :=
  List.foldlM_append

theorem run_append_eq_some_iff {state after : Nesting} {first second : Text} :
    run state (first ++ second) = some after ↔
      ∃ middle, run state first = some middle ∧
        run middle second = some after := by
  rw [run_append, Option.bind_eq_some_iff]

theorem run_cons_eq_some_iff {state after : Nesting} {c : Char} {text : Text} :
    run state (c :: text) = some after ↔
      ∃ middle, step state c = some middle ∧ run middle text = some after := by
  rw [run_cons, Option.bind_eq_some_iff]

theorem step_escaped (stack : List Enclosure) {c : Char}
    (h : isLineEnd c = false) : step ⟨stack, true⟩ c = some ⟨stack, false⟩ := by
  simp [step, h]

theorem step_escaped_eq_some {stack : List Enclosure} {c : Char}
    {after : Nesting} (h : step ⟨stack, true⟩ c = some after) :
    isLineEnd c = false ∧ after = ⟨stack, false⟩ := by
  cases hend : isLineEnd c with
  | true => simp [step, hend] at h
  | false =>
      rw [step_escaped stack hend] at h
      exact ⟨rfl, (Option.some.inj h).symm⟩

@[simp]
theorem step_backslash (stack : List Enclosure) :
    step ⟨stack, false⟩ '\\' = some ⟨stack, true⟩ := rfl

theorem step_of_ne {c : Char} (h : c ≠ '\\') (stack : List Enclosure) :
    step ⟨stack, false⟩ c =
      (turn c stack).map fun stack => ⟨stack, false⟩ := by
  simp [step, h]

/-! ## Plain characters -/

/-- A character that neither opens nor closes anything and escapes nothing. -/
def isPlain (c : Char) : Bool :=
  !(c == '\\' || c == '(' || c == ')' || isQuote c)

theorem isPlain_iff {c : Char} :
    isPlain c = true ↔
      c ≠ '\\' ∧ c ≠ '(' ∧ c ≠ ')' ∧ c ≠ '"' ∧ c ≠ '\'' := by
  simp [isPlain, isQuote, and_assoc]

theorem turn_plain {c : Char} (h : isPlain c = true)
    (stack : List Enclosure) : turn c stack = some stack := by
  obtain ⟨_, hopen, hclose, hdouble, hsingle⟩ := isPlain_iff.mp h
  have hopener : Enclosure.ofOpener? c = none := by
    simp [Enclosure.ofOpener?, hopen, hdouble, hsingle]
  cases stack with
  | nil => simp [turn, hclose, hopener]
  | cons inner outer =>
      cases inner <;> simp [turn, Enclosure.closer, hclose, hdouble, hsingle,
        hopener]

theorem step_plain {c : Char} (h : isPlain c = true)
    (stack : List Enclosure) :
    step ⟨stack, false⟩ c = some ⟨stack, false⟩ := by
  rw [step_of_ne (isPlain_iff.mp h).1, turn_plain h]
  rfl

/-- Plain characters change nothing. -/
theorem run_plain {text : Text} (h : ∀ c ∈ text, isPlain c = true)
    (stack : List Enclosure) :
    run ⟨stack, false⟩ text = some ⟨stack, false⟩ := by
  induction text with
  | nil => rfl
  | cons c text ih =>
      rw [run_cons, step_plain (h c (by simp))]
      exact ih fun c hc => h c (List.mem_cons_of_mem _ hc)

theorem run_char {c : Char} (h : isPlain c = true) (stack : List Enclosure) :
    run ⟨stack, false⟩ [c] = some ⟨stack, false⟩ :=
  run_plain (List.forall_mem_singleton.mpr h) stack

/-- White space is plain. -/
theorem isPlain_of_isSpace {c : Char} (h : Text.isSpace c = true) :
    isPlain c = true := by
  rw [isPlain_iff]
  refine ⟨?_, ?_, ?_, ?_, ?_⟩ <;> rintro rfl <;> revert h <;> decide

/-! ## Stacks -/

/-- What happens above a part of the stack does not depend on that part, as
long as no string is open there. -/
theorem turn_append {c : Char} {stack after outer : List Enclosure}
    (houter : Outside outer) (h : turn c stack = some after) :
    turn c (stack ++ outer) = some (after ++ outer) := by
  cases stack with
  | cons inner rest =>
      simp only [turn, List.cons_append] at h ⊢
      split at h
      · rename_i hclose
        rw [if_pos hclose, ← Option.some.inj h]
      · rename_i hclose
        rw [if_neg hclose]
        split at h
        · rename_i hgroup
          rw [if_pos hgroup, ← Option.some.inj h]
          simp
        · rename_i hgroup
          rw [if_neg hgroup, ← Option.some.inj h]
          rfl
  | nil =>
      simp only [turn] at h
      split at h
      · cases h
      · rename_i hclose
        rw [← Option.some.inj h]
        cases outer with
        | nil => simp [turn, hclose]
        | cons inner rest =>
            obtain rfl : inner = .group := houter inner rfl
            simp [turn, Enclosure.closer, hclose]

theorem step_append {c : Char} {stack after outer : List Enclosure}
    {escaped escapes : Bool} (houter : Outside outer)
    (h : step ⟨stack, escaped⟩ c = some ⟨after, escapes⟩) :
    step ⟨stack ++ outer, escaped⟩ c = some ⟨after ++ outer, escapes⟩ := by
  cases escaped with
  | true =>
      obtain ⟨hend, heq⟩ := step_escaped_eq_some h
      cases heq
      exact step_escaped _ hend
  | false =>
      by_cases hc : c = '\\'
      · subst hc
        rw [step_backslash] at h
        cases h
        rfl
      · rw [step_of_ne hc] at h ⊢
        obtain ⟨stack', hturn, heq⟩ := Option.map_eq_some_iff.mp h
        cases heq
        rw [turn_append houter hturn]
        rfl

/-- The same for a whole text. -/
theorem run_frame {text : Text} {stack after outer : List Enclosure}
    {escaped escapes : Bool} (houter : Outside outer)
    (h : run ⟨stack, escaped⟩ text = some ⟨after, escapes⟩) :
    run ⟨stack ++ outer, escaped⟩ text = some ⟨after ++ outer, escapes⟩ := by
  induction text generalizing stack escaped with
  | nil =>
      cases h
      rfl
  | cons c text ih =>
      obtain ⟨⟨middle, noted⟩, hstep, hrun⟩ := run_cons_eq_some_iff.mp h
      exact run_cons_eq_some_iff.mpr ⟨_, step_append houter hstep, ih hrun⟩

/-- Whether a backslash stands in front depends on no stack. -/
theorem step_escaped_congr {c : Char} {first second : List Enclosure}
    {escaped : Bool} {left right : Nesting}
    (hleft : step ⟨first, escaped⟩ c = some left)
    (hright : step ⟨second, escaped⟩ c = some right) :
    left.escaped = right.escaped := by
  cases escaped with
  | true =>
      rw [(step_escaped_eq_some hleft).2, (step_escaped_eq_some hright).2]
  | false =>
      by_cases hc : c = '\\'
      · subst hc
        cases hleft
        cases hright
        rfl
      · rw [step_of_ne hc] at hleft hright
        obtain ⟨_, _, rfl⟩ := Option.map_eq_some_iff.mp hleft
        obtain ⟨_, _, rfl⟩ := Option.map_eq_some_iff.mp hright
        rfl

theorem run_escaped_congr {text : Text} {first second : List Enclosure}
    {escaped : Bool} {left right : Nesting}
    (hleft : run ⟨first, escaped⟩ text = some left)
    (hright : run ⟨second, escaped⟩ text = some right) :
    left.escaped = right.escaped := by
  induction text generalizing first second escaped with
  | nil =>
      cases hleft
      cases hright
      rfl
  | cons c text ih =>
      obtain ⟨⟨left', noted⟩, hfirst, hleft⟩ := run_cons_eq_some_iff.mp hleft
      obtain ⟨⟨right', noted'⟩, hsecond, hright⟩ :=
        run_cons_eq_some_iff.mp hright
      obtain rfl : noted = noted' := step_escaped_congr hfirst hsecond
      exact ih hleft hright

end Nesting

end Cascade.Enclosed
