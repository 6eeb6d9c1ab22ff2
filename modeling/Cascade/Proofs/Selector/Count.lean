import Cascade.Selector.Tally
import Cascade.Selector.Weight

/-!
# The tally counts what a selector weighs

A tally to which conditions are added one by one has gained the weight of the
finished tree, whatever it held before.  For a function over selectors this
needs that the heaviest member is the same for the two ways of comparing.
-/

namespace Cascade

namespace Specificity

@[simp]
theorem add_zero (weight : Specificity) : weight.add zero = weight := rfl

@[simp]
theorem zero_add (weight : Specificity) : zero.add weight = weight := by
  simp [zero, add]

theorem add_assoc (first second third : Specificity) :
    (first.add second).add third = first.add (second.add third) := by
  simp [add, Nat.add_assoc]

theorem add_comm (first second : Specificity) :
    first.add second = second.add first := by
  simp [add, Nat.add_comm]

/-- Only zero is no heavier than zero. -/
theorem eq_zero_of_atMost_zero {weight : Specificity}
    (h : weight.atMost zero = true) : weight = zero := by
  obtain ⟨inline, ids, classes, types⟩ := weight
  have hnot (count : Nat) : ¬ decide (count < 0) = true := by simp
  unfold atMost at h
  split at h
  · exact absurd h (hnot inline)
  · rename_i hinline
    split at h
    · exact absurd h (hnot ids)
    · rename_i hids
      split at h
      · exact absurd h (hnot classes)
      · rename_i hclasses
        have htypes : types = 0 := Nat.le_zero.mp (of_decide_eq_true h)
        obtain rfl := Decidable.not_not.mp hinline
        obtain rfl := Decidable.not_not.mp hids
        obtain rfl := Decidable.not_not.mp hclasses
        rw [htypes]
        rfl

@[simp]
theorem max_zero (weight : Specificity) : weight.max zero = weight := by
  unfold max
  split
  · rename_i h
    exact (eq_zero_of_atMost_zero h).symm
  · rfl

end Specificity

theorem Compound.specificity_append (first second : Compound) :
    Compound.specificity (first ++ second) =
      (Compound.specificity first).add (Compound.specificity second) := by
  induction first with
  | nil => exact (Specificity.zero_add _).symm
  | cons simple rest ih =>
      rw [List.cons_append, Compound.specificity, ih, ← Specificity.add_assoc,
        Compound.specificity]

theorem Selector.specificity_append (first second : Selector) :
    Selector.specificity (first ++ second) =
      (Selector.specificity first).add (Selector.specificity second) := by
  induction first with
  | nil => exact (Specificity.zero_add _).symm
  | cons link rest ih =>
      obtain ⟨compound, combinator⟩ := link
      rw [List.cons_append, Selector.specificity, ih, ← Specificity.add_assoc,
        Selector.specificity]

@[simp]
theorem Selector.specificity_singleton (link : Link) :
    Selector.specificity [link] = Compound.specificity link.compound := by
  obtain ⟨compound, combinator⟩ := link
  rw [Selector.specificity, Selector.specificity, Specificity.add_zero]

theorem Selector.specificity_concat (front : Selector) (last : Link) :
    Selector.specificity (front ++ [last]) =
      (Selector.specificity front).add (Compound.specificity last.compound) := by
  rw [Selector.specificity_append, Selector.specificity_singleton]

namespace Tally

@[simp]
theorem specificity_zero : zero.specificity = .zero := rfl

theorem specificity_addId (tally : Tally) :
    tally.addId.specificity = tally.specificity.add ⟨0, 1, 0, 0⟩ := rfl

theorem specificity_addClass (tally : Tally) :
    tally.addClass.specificity = tally.specificity.add ⟨0, 0, 1, 0⟩ := rfl

theorem specificity_addType (tally : Tally) :
    tally.addType.specificity = tally.specificity.add ⟨0, 0, 0, 1⟩ := rfl

theorem specificity_absorb (tally other : Tally) :
    (tally.absorb other).specificity =
      tally.specificity.add other.specificity := rfl

theorem specificity_heavier (left right : Tally) :
    (heavier left right).specificity =
      left.specificity.max right.specificity := by
  unfold heavier Specificity.max
  split <;> rfl

mutual

theorem specificity_count (tally : Tally) (simple : Simple) :
    (count tally simple).specificity =
      tally.specificity.add simple.specificity := by
  match simple with
  | .id _ => exact specificity_addId tally
  | .className _ | .attribute _ _ | .pseudoClass _ | .textFunction _ _ =>
      exact specificity_addClass tally
  | .element _ | .pseudoElement _ => exact specificity_addType tally
  | .universal | .parent => exact (Specificity.add_zero _).symm
  | .selectorFunction name members =>
      have hmembers := specificity_heaviest? members
      unfold count Simple.specificity
      by_cases hname : Simple.isWeightless name = true
      · rw [if_pos hname, if_pos hname, Specificity.add_zero]
      · rw [if_neg hname, if_neg hname, ← hmembers]
        cases heaviest? members with
        | none => exact (Specificity.add_zero _).symm
        | some most => exact specificity_absorb tally most

theorem specificity_countCompound (tally : Tally) (compound : Compound) :
    (countCompound tally compound).specificity =
      tally.specificity.add (Compound.specificity compound) := by
  match compound with
  | [] => exact (Specificity.add_zero _).symm
  | simple :: rest =>
      rw [countCompound, specificity_countCompound _ rest,
        specificity_count tally simple, Specificity.add_assoc,
        Compound.specificity]

theorem specificity_countSelector (tally : Tally) (selector : Selector) :
    (countSelector tally selector).specificity =
      tally.specificity.add (Selector.specificity selector) := by
  match selector with
  | [] => exact (Specificity.add_zero _).symm
  | ⟨compound, combinator⟩ :: rest =>
      rw [countSelector, specificity_countSelector _ rest,
        specificity_countCompound tally compound, Specificity.add_assoc,
        Selector.specificity]

/-- The heaviest member is heaviest for both ways of counting. -/
theorem specificity_heaviest? (members : List Selector) :
    (heaviest? members).elim .zero specificity = Selector.heaviest members := by
  match members with
  | [] => rfl
  | selector :: rest =>
      have hselector := specificity_countSelector zero selector
      have hrest := specificity_heaviest? rest
      rw [specificity_zero, Specificity.zero_add] at hselector
      rw [heaviest?, Selector.heaviest, ← hselector, ← hrest]
      cases heaviest? rest with
      | none => exact (Specificity.max_zero _).symm
      | some most => exact specificity_heavier _ most

end

theorem countSelector_eq_foldl (tally : Tally) (selector : Selector) :
    countSelector tally selector =
      selector.foldl (fun tally link => tally.countCompound link.compound) tally := by
  induction selector generalizing tally with
  | nil => rfl
  | cons link rest ih =>
      obtain ⟨compound, combinator⟩ := link
      rw [countSelector, ih, List.foldl_cons]

/-- A tally that has counted all compounds of a selector, one behind the other, weighs
what the tree weighs, and nothing of it is inline.  No reader needs to have made the
tree. -/
theorem specificity_foldl_countCompound (selector : Selector) :
    (selector.foldl (fun tally link => tally.countCompound link.compound)
        zero).specificity = Selector.specificity selector ∧
      (Selector.specificity selector).inline = 0 := by
  have hcount : (countSelector zero selector).specificity =
      Selector.specificity selector := calc
    (countSelector zero selector).specificity
    _ = Specificity.zero.add (Selector.specificity selector) :=
        specificity_countSelector zero selector
    _ = Selector.specificity selector := Specificity.zero_add _
  rw [← countSelector_eq_foldl, hcount]
  refine ⟨rfl, ?_⟩
  rw [← hcount]
  rfl

end Tally

end Cascade
