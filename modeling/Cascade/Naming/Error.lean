import Cascade.Fault

/-!
# Why a name cannot be built

A declaration can stand where its kind means nothing, a name can hold a
character that has no written form, a fragment of selector text can be
malformed, and a symbol can be set for a kind that does not exist.  A misplaced
declaration is reported with the declarations that lead to it.
-/

namespace Cascade

inductive Misplacement where
  | noNames
  | partWithoutBlock
  | optionWithoutBlock
  | siblingWithoutElement
  /-- A parent reference stands behind a combinator of its fragment. -/
  | parentBehindCombinator
  /-- An element condition stands behind another condition. -/
  | elementBehindCondition
  /-- A parent reference has nothing to refer to. -/
  | parentWithoutElement
  | parentBehindCondition
  | parentRepeated
  | suffixWithoutClass
  | elementBehindParent
  deriving DecidableEq

inductive NamingError where
  /-- `trail` leads from the outermost declaration to the misplaced one. -/
  | misplaced (trail : List Text) (reason : Misplacement)
  | unknownKind (name : Text)
  | unescapable (name : Text)
  | badFragment (cause : Malformed)
  deriving DecidableEq

def Misplacement.message : Misplacement → Text
  | .noNames => "declaration has no names".toList
  | .partWithoutBlock =>
      "part needs an enclosing component, part, tweak or location".toList
  | .optionWithoutBlock =>
      "option needs an enclosing component, part, tweak or location".toList
  | .siblingWithoutElement => "sibling needs an element to repeat".toList
  | .parentBehindCombinator => "`&` may only open a fragment".toList
  | .elementBehindCondition =>
      "element selectors must open their compound".toList
  | .parentWithoutElement => "`&` has no parent selector".toList
  | .parentBehindCondition => "`&` must open its compound".toList
  | .parentRepeated => "`&` may appear once per fragment".toList
  | .suffixWithoutClass => "a suffix after `&` needs a class to extend".toList
  | .elementBehindParent => "element selectors cannot follow `&`".toList

/-- The declarations of a trail, the outermost first. -/
def trailText (trail : List Text) : Text :=
  List.intercalate " > ".toList trail

def NamingError.message : NamingError → Text
  | .misplaced trail reason =>
      "invalid nesting at `".toList ++ trailText trail ++ "`: ".toList ++
        reason.message
  | .unknownKind name => "unknown symbol kind: ".toList ++ name
  | .unescapable name => "cannot escape identifier ".toList ++ Text.quoted name
  | .badFragment cause =>
      "invalid selector fragment: ".toList ++ cause.message

end Cascade
