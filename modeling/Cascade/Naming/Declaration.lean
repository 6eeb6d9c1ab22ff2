import Cascade.Text.Basic

/-!
# Declarations

A declaration names elements or states of them, may carry a rule body, and holds
further declarations that apply inside it.  Any tree is a declaration; whether
its kinds can be nested as they are is decided when selectors are built.
-/

namespace Cascade

inductive Kind where
  /-- A block of its own. -/
  | component
  /-- An element named after its block. -/
  | part
  /-- A variant of the current element. -/
  | option
  /-- A block that overrides everything in the document. -/
  | tweak
  /-- A place in which blocks stand. -/
  | location
  /-- Selector text, added as it is written. -/
  | raw
  /-- The current element once more, right behind itself. -/
  | sibling
  deriving DecidableEq

def Kind.name : Kind → Text
  | .component => "component".toList
  | .part => "part".toList
  | .option => "option".toList
  | .tweak => "tweak".toList
  | .location => "location".toList
  | .raw => "raw".toList
  | .sibling => "sibling".toList

/-- One node of a declaration tree.  No body is different from an empty one. -/
structure Declaration where
  kind : Kind
  names : List Text
  body : Option Text
  children : List Declaration

namespace Declaration

def isLeaf (declaration : Declaration) : Bool :=
  declaration.children.isEmpty

/-- The short form in which a declaration appears in a trail. -/
def display (declaration : Declaration) : Text :=
  declaration.kind.name ++ '(' ::
    List.intercalate [',', ' '] declaration.names ++ [')']

/-- The names to build a selector for.  A sibling repeats the current element
once, whatever names it was given. -/
def choices (declaration : Declaration) : List Text :=
  match declaration.kind with
  | .sibling => [[]]
  | _ => declaration.names

end Declaration

end Cascade
