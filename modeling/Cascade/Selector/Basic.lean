import Cascade.Specificity

/-!
# Selectors

A simple selector states one condition on an element, a compound several
conditions on one element, and a selector links compounds by combinators.
Names are kept as they are written in a stylesheet, escapes included, so a
selector can be printed without another look at its names.

Any tree of these types is a value, also one without compounds or with a
combinator where none belongs; what a reader or the naming rules can produce is
stated separately.
-/

namespace Cascade

inductive Combinator where
  /-- Nothing follows. -/
  | none
  | descendant
  | child
  /-- The sibling right behind. -/
  | adjacent
  /-- Any later sibling. -/
  | general
  deriving DecidableEq

mutual

inductive Simple where
  | element (name : Text)
  | className (name : Text)
  | id (name : Text)
  | universal
  | pseudoClass (name : Text)
  | pseudoElement (name : Text)
  /-- The reference from a nested fragment to the element around it. -/
  | parent
  /-- An attribute; the empty value asks for its presence only. -/
  | attribute (name value : Text)
  /-- A functional pseudo-class over a list of selectors. -/
  | selectorFunction (name : Text) (members : List (List Link))
  /-- A functional pseudo-class whose argument is not looked into. -/
  | textFunction (name argument : Text)

/-- A compound and the combinator behind it. -/
structure Link where
  compound : List Simple
  combinator : Combinator

end

abbrev Compound := List Simple

abbrev Selector := List Link

namespace Simple

/-- An element condition, by name or universal, has to open its compound. -/
def isElement : Simple → Bool
  | .element _ => true
  | .universal => true
  | _ => false

def isParent : Simple → Bool
  | .parent => true
  | _ => false

/-- The pseudo-elements that may be written with a single colon. -/
def singleColonElements : List Text :=
  ["before".toList, "after".toList, "first-line".toList, "first-letter".toList]

/-- The functional pseudo-classes whose argument is a list of selectors. -/
def listFunctions : List Text :=
  ["not".toList, "is".toList, "has".toList, "where".toList]

def isWeightless (name : Text) : Bool :=
  Text.isKeyword ["where".toList] name

end Simple

namespace Compound

def hasParent (compound : Compound) : Bool :=
  compound.any Simple.isParent

/-- Whether an element condition stands behind the first place. -/
def hasMisplacedElement (compound : Compound) : Bool :=
  (compound.drop 1).any Simple.isElement

end Compound

end Cascade
