import Cascade.Selector.Basic

/-!
# Counting while building

A selector under construction carries a running tally, to which every condition
is added as it is written.  The tally is kept apart from the finished tree: it
threads one set of counts through the conditions from left to right, and for a
function over selectors it takes over the counts of the heaviest member.
-/

namespace Cascade

structure Tally where
  ids : Nat
  classes : Nat
  types : Nat
  deriving DecidableEq

namespace Tally

def zero : Tally := ⟨0, 0, 0⟩

def addId (tally : Tally) : Tally := { tally with ids := tally.ids + 1 }

def addClass (tally : Tally) : Tally :=
  { tally with classes := tally.classes + 1 }

def addType (tally : Tally) : Tally := { tally with types := tally.types + 1 }

def absorb (tally other : Tally) : Tally :=
  ⟨tally.ids + other.ids, tally.classes + other.classes,
    tally.types + other.types⟩

/-- A tally counts nothing that is written inline. -/
def specificity (tally : Tally) : Specificity :=
  ⟨0, tally.ids, tally.classes, tally.types⟩

def heavier (left right : Tally) : Tally :=
  if left.specificity.atMost right.specificity then right else left

mutual

def count : Tally → Simple → Tally
  | tally, .id _ => tally.addId
  | tally, .className _ => tally.addClass
  | tally, .attribute _ _ => tally.addClass
  | tally, .pseudoClass _ => tally.addClass
  | tally, .element _ => tally.addType
  | tally, .pseudoElement _ => tally.addType
  | tally, .universal => tally
  | tally, .parent => tally
  | tally, .selectorFunction name members =>
      if Simple.isWeightless name then tally
      else
        match heaviest? members with
        | some most => tally.absorb most
        | none => tally
  | tally, .textFunction _ _ => tally.addClass

def countCompound : Tally → Compound → Tally
  | tally, [] => tally
  | tally, simple :: rest => countCompound (count tally simple) rest

def countSelector : Tally → Selector → Tally
  | tally, [] => tally
  | tally, ⟨compound, _⟩ :: rest =>
      countSelector (countCompound tally compound) rest

def heaviest? : List Selector → Option Tally
  | [] => none
  | selector :: rest =>
      match heaviest? rest with
      | some most => some (heavier (countSelector zero selector) most)
      | none => some (countSelector zero selector)

end

def ofSelector (selector : Selector) : Tally :=
  countSelector zero selector

end Tally

end Cascade
