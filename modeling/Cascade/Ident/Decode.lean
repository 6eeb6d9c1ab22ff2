import Cascade.Ident.Basic

/-!
# The characters an identifier stands for

Decoding replaces every escape by the character it denotes: hexadecimal digits
by that code point, any other escaped character by itself.  It is the reading
that a stylesheet's consumer gives to an identifier.
-/

namespace Cascade.Ident

def hexValue (c : Char) : Nat :=
  if c.isDigit then c.toNat - '0'.toNat
  else if 'a' ≤ c then c.toNat - 'a'.toNat + 10
  else c.toNat - 'A'.toNat + 10

def hexNumber (digits : Text) : Nat :=
  digits.foldl (fun number c => number * 16 + hexValue c) 0

/-- The text behind the one space that may close an escape. -/
def dropSpace : Text → Text
  | ' ' :: rest => rest
  | input => input

theorem length_dropSpace_le (input : Text) :
    (dropSpace input).length ≤ input.length := by
  fun_cases dropSpace input <;> simp

theorem length_splitHex_le (limit : Nat) (input : Text) :
    (splitHex limit input).2.length ≤ input.length := by
  have happend := congrArg List.length (append_of_splitHex limit input)
  rw [List.length_append] at happend
  omega

def decode : Text → Text
  | [] => []
  | c :: rest =>
      if c = '\\' then
        match _h : splitHex 6 rest with
        | (digit :: digits, after) =>
            Char.ofNat (hexNumber (digit :: digits)) :: decode (dropSpace after)
        | ([], _) =>
            match rest with
            | [] => ['\\']
            | escaped :: after => escaped :: decode after
      else c :: decode rest
termination_by input => input.length
decreasing_by
  · have hhex := length_splitHex_le 6 rest
    have hspace := length_dropSpace_le after
    simp only [_h] at hhex
    simp only [List.length_cons]
    omega
  · simp only [List.length_cons]
    omega
  · simp

end Cascade.Ident
