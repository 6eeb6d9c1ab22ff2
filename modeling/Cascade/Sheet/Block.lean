import Cascade.Sheet.Body

/-!
# Blocks

A rule is a selector text, an opening brace, a body and a closing brace.  The
selector text ends at the first opening brace whatever stands before it; the
body keeps strings and groups whole.
-/

namespace Cascade

/-- One rule as it stands in a stylesheet, white space at the edges of its two
texts removed. -/
structure Block where
  selector : Text
  body : Text
  deriving DecidableEq

namespace Block

def read (input : Text) : Except Fault (Block × Text) :=
  let start := Text.skipBlanks input
  match Text.cutAt? '{' start with
  | none => .error (.recoverable .openingBrace start)
  | some (selector, inside) =>
      match Sheet.upTo '}' inside with
      | (body, '}' :: rest) => .ok (⟨Text.trim selector, Text.trim body⟩, rest)
      | (_, rest) => .error (.recoverable .delimiter rest)

/-- Reading a block uses up at least its two braces. -/
theorem length_lt_of_read {input rest : Text} {block : Block}
    (h : read input = .ok (block, rest)) : rest.length < input.length := by
  have hskip := Text.length_skipBlanks_le input
  simp only [read] at h
  split at h
  · cases h
  · rename_i selector inside hcut
    split at h
    · rename_i body after hrun
      cases h
      have hle := Sheet.length_upTo_le '}' inside
      have hcut := congrArg List.length (Text.cutAt?_eq_some_iff.mp hcut).2
      rw [hrun, List.length_cons] at hle
      rw [List.length_append, List.length_cons] at hcut
      omega
    · cases h

def readRun (input : Text) : List Block × Text :=
  match _h : read input with
  | .ok (block, rest) =>
      let found := readRun rest
      (block :: found.1, found.2)
  | .error _ => ([], input)
termination_by input.length
decreasing_by exact length_lt_of_read _h

/-- The blocks at the front of a text, and what is left behind them and behind
the blanks that follow. -/
def readAll (input : Text) : List Block × Text :=
  let found := readRun input
  (found.1, Text.skipBlanks found.2)

theorem readRun_of_ok {input rest : Text} {block : Block}
    (h : read input = .ok (block, rest)) :
    readRun input = (block :: (readRun rest).1, (readRun rest).2) := by
  rw [readRun]
  split <;> rename_i heq <;> cases h.symm.trans heq
  rfl

theorem readRun_of_error {input : Text} {fault : Fault}
    (h : read input = .error fault) : readRun input = ([], input) := by
  rw [readRun]
  split <;> rename_i heq <;> cases h.symm.trans heq
  rfl

end Block

end Cascade
