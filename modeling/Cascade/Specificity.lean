import Cascade.Text.Basic

/-!
# Specificity

The weight of a selector is four counts, and the order is lexicographic: one
more in an earlier count outweighs any number in the later ones.  Sums are taken
count by count, so zero is neutral for the sum and least in the order.
-/

namespace Cascade

/-- How often each category occurs in a selector, the heaviest first. -/
structure Specificity where
  inline : Nat
  ids : Nat
  classes : Nat
  types : Nat
  deriving DecidableEq

namespace Specificity

def zero : Specificity := ⟨0, 0, 0, 0⟩

def add (left right : Specificity) : Specificity :=
  ⟨left.inline + right.inline, left.ids + right.ids,
    left.classes + right.classes, left.types + right.types⟩

/-- Whether one weight is no heavier than another: the first count that differs
decides. -/
def atMost (left right : Specificity) : Bool :=
  if left.inline ≠ right.inline then decide (left.inline < right.inline)
  else if left.ids ≠ right.ids then decide (left.ids < right.ids)
  else if left.classes ≠ right.classes then
    decide (left.classes < right.classes)
  else decide (left.types ≤ right.types)

def max (left right : Specificity) : Specificity :=
  if left.atMost right then right else left

def sum (weights : List Specificity) : Specificity :=
  weights.foldl add zero

def heaviest? : List Specificity → Option Specificity
  | [] => none
  | first :: rest => some (rest.foldl max first)

def sort (weights : List Specificity) : List Specificity :=
  weights.mergeSort atMost

def text (weight : Specificity) : Text :=
  List.intercalate [','] <|
    [weight.inline, weight.ids, weight.classes, weight.types].map
      (Nat.toDigits 10)

end Specificity

end Cascade
