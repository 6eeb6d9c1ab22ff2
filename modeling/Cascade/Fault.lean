import Cascade.Text.Quoted

/-!
# What went wrong while reading

A reader that fails names the thing it expected and the text it stood before.
A recoverable fault lets an enclosing repetition end there, as if nothing more
had been written; a committed fault comes after a mark that admits no other
reading, and ends the whole attempt.
-/

namespace Cascade

/-- A mapped result succeeded because the result itself did. -/
theorem exists_of_map_eq_ok {ε α β : Type} {result : Except ε α} {f : α → β}
    {value : β} (h : result.map f = .ok value) :
    ∃ found, result = .ok found ∧ f found = value := by
  cases result with
  | error cause => cases h
  | ok found => exact ⟨found, rfl, Except.ok.inj h⟩

theorem exists_map_eq_ok_iff {ε α β : Type} {result : Except ε α} {f : α → β} :
    (∃ value, result.map f = .ok value) ↔ ∃ found, result = .ok found := by
  constructor
  · rintro ⟨value, hvalue⟩
    exact (exists_of_map_eq_ok hvalue).imp fun _ hfound => hfound.1
  · rintro ⟨found, rfl⟩
    exact ⟨f found, rfl⟩

theorem map_eq_error_iff {ε α β : Type} {result : Except ε α} {f : α → β} {cause : ε} :
    result.map f = .error cause ↔ result = .error cause := by
  cases result <;> simp [Except.map]

instance decidableEqExcept {ε α : Type} [DecidableEq ε] [DecidableEq α] :
    DecidableEq (Except ε α)
  | .ok value, .ok other =>
      decidable_of_iff (value = other) ⟨congrArg _, Except.ok.inj⟩
  | .error cause, .error other =>
      decidable_of_iff (cause = other) ⟨congrArg _, Except.error.inj⟩
  | .ok _, .error _ => .isFalse nofun
  | .error _, .ok _ => .isFalse nofun

/-- Whether an enclosing repetition may end at a fault. -/
inductive Severity where
  | recoverable
  | committed
  deriving DecidableEq

inductive Expected where
  /-- The first unit of an identifier. -/
  | name
  /-- The one character that opens or closes an enclosure. -/
  | delimiter
  /-- The end of a function's argument. -/
  | endOfText
  /-- The brace that opens a block. -/
  | openingBrace
  deriving DecidableEq

/-- A reader's failure: what it expected in front of which text. -/
structure Fault where
  severity : Severity
  expected : Expected
  rest : Text
  deriving DecidableEq

/-- Where a reader stopped although text was left. -/
inductive Ending where
  | selector
  | selectorList
  | stylesheet
  deriving DecidableEq

inductive Malformed where
  | fault (fault : Fault)
  | leftover (ending : Ending) (rest : Text)
  deriving DecidableEq

namespace Expected

def code : Expected → Text
  | .name => "Many1Count".toList
  | .delimiter => "Char".toList
  | .endOfText => "Eof".toList
  | .openingBrace => "TakeUntil".toList

end Expected

namespace Fault

def recoverable (expected : Expected) (rest : Text) : Fault :=
  ⟨.recoverable, expected, rest⟩

def committed (expected : Expected) (rest : Text) : Fault :=
  ⟨.committed, expected, rest⟩

/-- The same fault behind a mark that admits no other reading. -/
def commit (fault : Fault) : Fault :=
  { fault with severity := .committed }

def message (fault : Fault) : Text :=
  (match fault.severity with
    | .recoverable => "Parsing Error: ".toList
    | .committed => "Parsing Failure: ".toList) ++
  "Error ".toList ++ '{' :: " input: ".toList ++ Text.quoted fault.rest ++
  ", code: ".toList ++ fault.expected.code ++ [' ', '}']

end Fault

namespace Ending

def phrase : Ending → Text
  | .selector => "after selector".toList
  | .selectorList => "at end of selector list".toList
  | .stylesheet => "at end of stylesheet".toList

end Ending

namespace Malformed

/-- The text of an unread rest is shown without its outer white space. -/
def detail : Malformed → Text
  | .fault found => found.message
  | .leftover ending rest =>
      "Unexpected tokens ".toList ++ ending.phrase ++ ": ".toList ++
        Text.trim rest

def message (cause : Malformed) : Text :=
  "CSS syntax error: ".toList ++ cause.detail

end Malformed

end Cascade
