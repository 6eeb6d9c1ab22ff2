import Cascade.Selector.Basic

/-!
# Equality of selectors

Two selectors are equal when they are built alike from equal names, and this is
decided by walking both trees side by side.
-/

namespace Cascade

mutual

def Simple.same : Simple → Simple → Bool
  | .element name, .element other => name == other
  | .className name, .className other => name == other
  | .id name, .id other => name == other
  | .universal, .universal => true
  | .pseudoClass name, .pseudoClass other => name == other
  | .pseudoElement name, .pseudoElement other => name == other
  | .parent, .parent => true
  | .attribute name value, .attribute other otherValue =>
      name == other && value == otherValue
  | .selectorFunction name members, .selectorFunction other otherMembers =>
      name == other && Selector.sameList members otherMembers
  | .textFunction name argument, .textFunction other otherArgument =>
      name == other && argument == otherArgument
  | _, _ => false

def Compound.same : Compound → Compound → Bool
  | [], [] => true
  | simple :: rest, other :: otherRest =>
      simple.same other && Compound.same rest otherRest
  | _, _ => false

def Selector.same : Selector → Selector → Bool
  | [], [] => true
  | ⟨compound, combinator⟩ :: rest, ⟨other, otherCombinator⟩ :: otherRest =>
      Compound.same compound other && combinator == otherCombinator &&
        Selector.same rest otherRest
  | _, _ => false

def Selector.sameList : List Selector → List Selector → Bool
  | [], [] => true
  | selector :: rest, other :: otherRest =>
      Selector.same selector other && Selector.sameList rest otherRest
  | _, _ => false

end

mutual

theorem Simple.same_iff : ∀ simple other : Simple,
    simple.same other = true ↔ simple = other
  | .selectorFunction name members, other => by
      cases other <;> simp [Simple.same, Selector.sameList_iff members]
  | .element _, other | .className _, other | .id _, other | .universal, other
  | .pseudoClass _, other | .pseudoElement _, other | .parent, other
  | .attribute _ _, other | .textFunction _ _, other => by
      cases other <;> simp [Simple.same]

theorem Compound.same_iff : ∀ compound other : Compound,
    Compound.same compound other = true ↔ compound = other
  | [], other => by cases other <;> simp [Compound.same]
  | simple :: rest, other => by
      cases other <;>
        simp [Compound.same, Simple.same_iff simple, Compound.same_iff rest]

theorem Selector.same_iff : ∀ selector other : Selector,
    Selector.same selector other = true ↔ selector = other
  | [], other => by cases other <;> simp [Selector.same]
  | ⟨compound, combinator⟩ :: rest, [] => by simp [Selector.same]
  | ⟨compound, combinator⟩ :: rest, ⟨_, _⟩ :: _ => by
      simp [Selector.same, Compound.same_iff compound, Selector.same_iff rest,
        and_assoc]

theorem Selector.sameList_iff : ∀ selectors others : List Selector,
    Selector.sameList selectors others = true ↔ selectors = others
  | [], others => by cases others <;> simp [Selector.sameList]
  | selector :: rest, others => by
      cases others <;>
        simp [Selector.sameList, Selector.same_iff selector,
          Selector.sameList_iff rest]

end

instance : DecidableEq Simple := fun simple other =>
  decidable_of_iff _ (Simple.same_iff simple other)

instance : DecidableEq Link := fun link other =>
  decidable_of_iff (link.compound = other.compound ∧
    link.combinator = other.combinator) (by cases link; cases other; simp)

end Cascade
