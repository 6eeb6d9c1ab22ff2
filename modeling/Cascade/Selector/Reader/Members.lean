import Cascade.Selector.Reader.Links

/-!
# Reading a list of selectors

The members of a list are separated by commas, with blanks on either side.  The
argument of a function has to be a list from its first character to its last.
-/

namespace Cascade.Selector

/-- The further members of a list.  A comma without a selector behind it is
left unread, unless the fault was committed. -/
def readMembersWith (argument : ArgumentReader) (input : Text) :
    Except Fault (List Selector × Text) :=
  match _hcomma : Text.skipBlanks input with
  | ',' :: behind =>
      match _hnext : readWith argument (Text.skipBlanks behind) with
      | .ok (selector, rest) =>
          (readMembersWith argument rest).map fun (members, after) =>
            (selector :: members, after)
      | .error fault =>
          match fault.severity with
          | .recoverable => .ok ([], input)
          | .committed => .error fault
  | _ => .ok ([], input)
termination_by input.length
decreasing_by
  have hinput := Text.length_skipBlanks_le input
  have hbehind := Text.length_skipBlanks_le behind
  have hrest := length_lt_of_readWith _hnext
  rw [_hcomma, List.length_cons] at hinput
  omega

theorem readMembersWith_of_ok {argument : ArgumentReader}
    {input behind rest : Text} {selector : Selector}
    (hcomma : Text.skipBlanks input = ',' :: behind)
    (hnext : readWith argument (Text.skipBlanks behind) = .ok (selector, rest)) :
    readMembersWith argument input =
      (readMembersWith argument rest).map fun (members, after) =>
        (selector :: members, after) := by
  rw [readMembersWith]
  split
  · rename_i behind' heq
    cases hcomma.symm.trans heq
    split <;> rename_i heq <;> cases hnext.symm.trans heq
    rfl
  · rename_i hno
    exact absurd hcomma (hno behind)

theorem readMembersWith_of_error {argument : ArgumentReader}
    {input behind : Text} {fault : Fault}
    (hcomma : Text.skipBlanks input = ',' :: behind)
    (hnext : readWith argument (Text.skipBlanks behind) = .error fault) :
    readMembersWith argument input =
      match fault.severity with
      | .recoverable => .ok ([], input)
      | .committed => .error fault := by
  rw [readMembersWith]
  split
  · rename_i behind' heq
    cases hcomma.symm.trans heq
    split <;> rename_i heq <;> cases hnext.symm.trans heq
    rfl
  · rename_i hno
    exact absurd hcomma (hno behind)

/-- A list ends where no comma follows. -/
theorem readMembersWith_of_no_comma {argument : ArgumentReader} {input : Text}
    (h : ∀ behind, Text.skipBlanks input ≠ ',' :: behind) :
    readMembersWith argument input = .ok ([], input) := by
  rw [readMembersWith]
  split
  · rename_i behind heq
    exact absurd heq (h behind)
  · rfl

def readListWith (argument : ArgumentReader) (input : Text) :
    Except Fault (List Selector × Text) :=
  match readWith argument (Text.skipBlanks input) with
  | .ok (selector, rest) =>
      (readMembersWith argument rest).map fun (members, after) =>
        (selector :: members, after)
  | .error fault => .error fault

/-- Reads the whole of a function's argument as a list of selectors; every
fault is committed, and so is a rest behind the list. -/
def readArgumentWith (argument : ArgumentReader) : ArgumentReader :=
  fun content =>
    match readListWith argument content with
    | .error fault => .error fault.commit
    | .ok (members, rest) =>
        match Text.skipBlanks rest with
        | [] => .ok members
        | left => .error (.committed .endOfText left)

end Cascade.Selector
