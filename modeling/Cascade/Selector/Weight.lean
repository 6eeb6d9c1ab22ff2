import Cascade.Selector.Basic

/-!
# The specificity of a selector

Ids, class-like conditions and element-like conditions are counted over the
whole selector.  A function over selectors weighs as much as its heaviest
member, except that `:where` weighs nothing; a function with any other argument
counts as one pseudo-class.
-/

namespace Cascade

mutual

def Simple.specificity : Simple → Specificity
  | .id _ => ⟨0, 1, 0, 0⟩
  | .className _ | .attribute _ _ | .pseudoClass _ => ⟨0, 0, 1, 0⟩
  | .element _ | .pseudoElement _ => ⟨0, 0, 0, 1⟩
  | .universal | .parent => .zero
  | .selectorFunction name members =>
      if Simple.isWeightless name then .zero else Selector.heaviest members
  | .textFunction _ _ => ⟨0, 0, 1, 0⟩

def Compound.specificity : Compound → Specificity
  | [] => .zero
  | simple :: rest => simple.specificity.add (Compound.specificity rest)

def Selector.specificity : Selector → Specificity
  | [] => .zero
  | ⟨compound, _⟩ :: rest =>
      (Compound.specificity compound).add (Selector.specificity rest)

/-- The weight of the heaviest member; no members weigh nothing. -/
def Selector.heaviest : List Selector → Specificity
  | [] => .zero
  | selector :: rest =>
      (Selector.specificity selector).max (Selector.heaviest rest)

end

end Cascade
