import Cascade.Ident.Basic

/-!
# Writing a name as an identifier

A name may hold any visible character, an identifier may not, so the ASCII
characters that have a meaning in a selector are written with a backslash.  A
leading digit, and a leading hyphen that would read as a custom property or a
number, are escaped as well.  White space and controls have no written form
here.
-/

namespace Cascade.Ident

/-- White space and controls cannot be part of an identifier. -/
def isWritable (c : Char) : Bool :=
  !(Text.isSpace c || Text.isControl c)

/-- One character behind the first. -/
def escapeChar (c : Char) : Text :=
  if isNameChar c then [c] else ['\\', c]

/-- A leading digit is written by its code point.  The space closes the
escape, so that a hexadecimal digit behind it is not taken in. -/
def escapeDigit (c : Char) : Text :=
  '\\' :: Nat.toDigits 16 c.toNat ++ [' ']

/-- A hyphen at the front needs a backslash unless a letter-like character
follows it. -/
def hyphenNeedsEscape : Text → Bool
  | [] => true
  | next :: _ => next == '-' || next.isDigit

def escapeFirst (c : Char) (rest : Text) : Text :=
  if c.isDigit then escapeDigit c
  else if c = '-' && hyphenNeedsEscape rest then ['\\', '-']
  else escapeChar c

/-- The written form of a name.  The empty name has none, and neither has a
name with a character that is not writable. -/
def escape? (name : Text) : Option Text :=
  match name with
  | [] => none
  | first :: rest =>
      if name.all isWritable then
        some (escapeFirst first rest ++ rest.flatMap escapeChar)
      else none

end Cascade.Ident
