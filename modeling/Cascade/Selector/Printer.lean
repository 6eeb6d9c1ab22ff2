import Cascade.Selector.Basic

/-!
# The text of a selector

Conditions follow one another without a gap, a combinator other than the
descendant stands between two spaces, and the members of a list are separated
by a comma and a space.
-/

namespace Cascade

def Combinator.text : Combinator → Text
  | .none => []
  | .descendant => [' ']
  | .child => [' ', '>', ' ']
  | .adjacent => [' ', '+', ' ']
  | .general => [' ', '~', ' ']

mutual

def Simple.text : Simple → Text
  | .element name => name
  | .className name => '.' :: name
  | .id name => '#' :: name
  | .universal => ['*']
  | .pseudoClass name => ':' :: name
  | .pseudoElement name => ':' :: ':' :: name
  | .parent => ['&']
  | .attribute name [] => '[' :: name ++ [']']
  | .attribute name (first :: rest) =>
      '[' :: name ++ '=' :: first :: rest ++ [']']
  | .selectorFunction name members =>
      ':' :: name ++ '(' :: Selector.listText members ++ [')']
  | .textFunction name argument => ':' :: name ++ '(' :: argument ++ [')']

def Compound.text : Compound → Text
  | [] => []
  | simple :: rest => simple.text ++ Compound.text rest

def Selector.text : Selector → Text
  | [] => []
  | ⟨compound, combinator⟩ :: rest =>
      Compound.text compound ++ combinator.text ++ Selector.text rest

def Selector.listText : List Selector → Text
  | [] => []
  | [selector] => Selector.text selector
  | selector :: next :: rest =>
      Selector.text selector ++ ',' :: ' ' :: Selector.listText (next :: rest)

end

end Cascade
