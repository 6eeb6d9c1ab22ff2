import Cascade.Proofs.Naming.Admission
import Mathlib.Data.List.DropRight
import Mathlib.Data.List.Infix

/-!
# What a chain of declarations is called

A chain is read from its end.  The last block on it and the parts behind that block
make up one name; the options behind the last block or part are written beside it,
each with a class of its own.  A part behind options is a further element, since the
options belong to the one above.  All of this can be read off the kinds and the names
of a chain, whatever selectors are built for it.
-/

namespace Cascade

structure Step where
  kind : Kind
  name : Text

/-- Declarations with one name each, the outermost first. -/
abbrev Chain := List Step

/-- Whether declarations of a kind name an element, as a block or as a part of one. -/
def Kind.namesElement (kind : Kind) : Bool :=
  kind.isBlock || decide (kind = .part)

def Symbols.mark (symbols : Symbols) (step : Step) : Text :=
  match step.kind with
  | .component => symbols.component ++ step.name
  | .part => symbols.part ++ step.name
  | .option => symbols.option ++ step.name
  | .tweak => symbols.tweak ++ step.name
  | .location => symbols.location ++ step.name
  | .raw | .sibling => step.name

namespace Chain

def behind (ends : Kind → Bool) (chain : Chain) : Chain :=
  chain.rtakeWhile fun step => !ends step.kind

def lastParts (chain : Chain) : Chain :=
  (chain.behind Kind.isBlock).filter fun step => decide (step.kind = .part)

/-- The options behind the last block or part. -/
def lastOptions (chain : Chain) : Chain :=
  (chain.behind Kind.namesElement).filter fun step => decide (step.kind = .option)

/-- The name of the current element: the last block's, continued by the parts behind
it, whatever stands between them. -/
def base? (symbols : Symbols) (chain : Chain) : Option Text :=
  (chain.filter fun step => step.kind.isBlock).getLast?.map fun block =>
    symbols.mark block ++ chain.lastParts.flatMap symbols.mark

/-- Whether a chain ends in a part with an option between it and the block or part
before. -/
def endsDetached (chain : Chain) : Bool :=
  (chain.getLast?.any fun step => decide (step.kind = .part)) &&
    !(lastOptions chain.dropLast).isEmpty

/-- How many elements a chain has: one for each block, one for each copy, and one for
each part that options separate from its block. -/
def elements (chain : Chain) : Nat :=
  (chain.countP fun step => step.kind.isBlock) +
    (chain.countP fun step => decide (step.kind = .sibling)) +
    chain.inits.countP endsDetached

/-! ## One more declaration -/

variable {symbols : Symbols} {chain : Chain} {step : Step}

theorem behind_concat (ends : Kind → Bool) (chain : Chain) (step : Step) :
    behind ends (chain ++ [step]) =
      if ends step.kind then [] else chain.behind ends ++ [step] := by
  unfold behind
  rw [List.rtakeWhile_concat]
  cases ends step.kind <;> simp

theorem lastParts_concat (chain : Chain) (step : Step) :
    lastParts (chain ++ [step]) =
      if step.kind.isBlock then []
      else if step.kind = .part then chain.lastParts ++ [step]
      else chain.lastParts := by
  unfold lastParts
  rw [behind_concat]
  cases step.kind.isBlock <;> by_cases hpart : step.kind = .part <;> simp [hpart]

theorem lastOptions_concat (chain : Chain) (step : Step) :
    lastOptions (chain ++ [step]) =
      if step.kind.namesElement then []
      else if step.kind = .option then chain.lastOptions ++ [step]
      else chain.lastOptions := by
  unfold lastOptions
  rw [behind_concat]
  cases step.kind.namesElement <;> by_cases hoption : step.kind = .option <;>
    simp [hoption]

theorem lastOptions_concat_of_namesElement (h : step.kind.namesElement = true) :
    lastOptions (chain ++ [step]) = [] := by
  rw [lastOptions_concat, if_pos h]

/-- A block takes a name of its own, a part continues the name so far. -/
theorem base?_concat (symbols : Symbols) (chain : Chain) (step : Step) :
    base? symbols (chain ++ [step]) =
      if step.kind.isBlock then some (symbols.mark step)
      else if step.kind = .part then
        (chain.base? symbols).map fun base => base ++ symbols.mark step
      else chain.base? symbols := by
  unfold base?
  rw [lastParts_concat, List.filter_append]
  by_cases hblock : step.kind.isBlock = true
  · simp [hblock]
  · have hnone : [step].filter (fun step => step.kind.isBlock) = [] := by
      simp [hblock]
    rw [hnone, List.append_nil, if_neg hblock, if_neg hblock]
    split <;> simp [Function.comp_def]

theorem endsDetached_concat (chain : Chain) (step : Step) :
    endsDetached (chain ++ [step]) =
      (decide (step.kind = .part) && !chain.lastOptions.isEmpty) := by
  simp [endsDetached]

theorem elements_concat (chain : Chain) (step : Step) :
    elements (chain ++ [step]) = chain.elements +
      ((if step.kind.isBlock then 1 else 0) +
        (if step.kind = .sibling then 1 else 0) +
        if step.kind = .part ∧ chain.lastOptions ≠ [] then 1 else 0) := by
  have hinits : (chain ++ [step]).inits = chain.inits ++ [chain ++ [step]] := by
    simp [List.inits_append]
  unfold elements
  rw [hinits]
  simp only [List.countP_append, List.countP_singleton, endsDetached_concat,
    decide_eq_true_eq, Bool.and_eq_true, Bool.not_eq_true', List.isEmpty_eq_false_iff]
  omega

/-- The option stays with the first element; the copy and its part do not. -/
example :
    base? .builtin [⟨.component, ['a']⟩, ⟨.option, ['o']⟩, ⟨.part, ['p']⟩, ⟨.sibling, []⟩,
        ⟨.part, ['q']⟩] = some "a.p.q".toList ∧
      elements [⟨.component, ['a']⟩, ⟨.option, ['o']⟩, ⟨.part, ['p']⟩, ⟨.sibling, []⟩,
        ⟨.part, ['q']⟩] = 3 := by
  decide

end Chain

end Cascade
