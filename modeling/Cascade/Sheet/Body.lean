import Cascade.Text.Enclosed

/-!
# Bodies and declarations

The body of a rule ends at a closing brace and its declarations at a semicolon,
but neither counts inside a string or a group.  Outside them a backslash and a
closing parenthesis have no meaning of their own.
-/

namespace Cascade.Sheet

def isOpener (c : Char) : Bool :=
  c == '(' || Enclosed.isQuote c

/-- The text up to a mark outside strings and groups.  It also stops in front
of a string or a group that is not closed. -/
def upTo (mark : Char) (input : Text) : Text × Text :=
  match _henclosed : Enclosed.enclosed? input with
  | some (piece, rest) =>
      let found := upTo mark rest
      (piece ++ found.1, found.2)
  | none =>
      match input with
      | [] => ([], [])
      | c :: rest =>
          if c = mark || isOpener c then ([], c :: rest)
          else
            let found := upTo mark rest
            (c :: found.1, found.2)
termination_by input.length
decreasing_by
  · exact Enclosed.length_lt_of_enclosed? _henclosed
  · simp

theorem upTo_of_enclosed {mark : Char} {input piece rest : Text}
    (h : Enclosed.enclosed? input = some (piece, rest)) :
    upTo mark input = (piece ++ (upTo mark rest).1, (upTo mark rest).2) := by
  rw [upTo]
  split <;> rename_i heq <;> cases h.symm.trans heq
  rfl

theorem upTo_cons {mark c : Char} {rest : Text}
    (h : Enclosed.enclosed? (c :: rest) = none) :
    upTo mark (c :: rest) =
      if c = mark || isOpener c then ([], c :: rest)
      else (c :: (upTo mark rest).1, (upTo mark rest).2) := by
  rw [upTo]
  split
  · rename_i heq
    cases h.symm.trans heq
  · rfl

@[simp]
theorem upTo_nil (mark : Char) : upTo mark [] = ([], []) := by
  rw [upTo]
  rfl

/-- Nothing is lost between that text and what follows it. -/
theorem append_of_upTo (mark : Char) (input : Text) :
    (upTo mark input).1 ++ (upTo mark input).2 = input := by
  fun_induction upTo mark input with
  | case1 input piece rest h found ih =>
      have happend := Enclosed.append_of_enclosed? h
      rw [← happend, List.append_assoc]
      exact congrArg (piece ++ ·) ih
  | case2 => rfl
  | case3 => rfl
  | case4 c rest _ _ found ih => exact congrArg (c :: ·) ih

theorem length_upTo_le (mark : Char) (input : Text) :
    (upTo mark input).2.length ≤ input.length := by
  have happend := congrArg List.length (append_of_upTo mark input)
  rw [List.length_append] at happend
  omega

/-- The pieces of a body between its semicolons.  A piece that cannot be
finished, because a string or group in it is not closed, takes the whole rest. -/
def pieces (body : Text) : List Text :=
  match _hpiece : upTo ';' body with
  | (piece, []) => [piece]
  | (piece, c :: rest) => if c = ';' then piece :: pieces rest else [body]
termination_by body.length
decreasing_by
  have hle := length_upTo_le ';' body
  rw [_hpiece, List.length_cons] at hle
  omega

/-- The declarations of a body, in order, without white space at their edges;
an empty one is dropped. -/
def splitDeclarations (body : Text) : List Text :=
  ((pieces body).map Text.trim).filter fun declaration => !declaration.isEmpty

end Cascade.Sheet
