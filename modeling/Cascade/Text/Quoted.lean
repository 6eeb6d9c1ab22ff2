import Cascade.Text.Unprintable
import Cascade.Text.Extending

/-!
# Quoted texts

A message quotes a text so that its exact characters can be read off.  Quote
and backslash get a backslash, four controls have a short name, and a character
that would not be seen is written by its code point in hexadecimal.
-/

namespace Cascade.Text

/-- The code point of a character between braces, in as few lower-case
hexadecimal digits as it takes. -/
def codePoint (c : Char) : Text :=
  ['\\', 'u', '{'] ++ Nat.toDigits 16 c.toNat ++ ['}']

def quotedChar (c : Char) : Text :=
  if c = '"' then "\\\"".toList
  else if c = '\\' then "\\\\".toList
  else if c = '\x00' then "\\0".toList
  else if c = '\t' then "\\t".toList
  else if c = '\r' then "\\r".toList
  else if c = '\n' then "\\n".toList
  else if isExtending c || isUnprintable c then codePoint c
  else [c]

def quoted (text : Text) : Text :=
  '"' :: text.flatMap quotedChar ++ ['"']

end Cascade.Text
