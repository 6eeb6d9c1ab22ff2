import Cascade.Selector.Reader.Compound

/-!
# Reading a selector

Combinators link compounds.  One step of lookahead decides whether a combinator
belongs to the selector: without a compound behind it, it is left for whoever
reads on.
-/

namespace Cascade.Selector

/-- The combinator at the front of a text and the text behind it.  Blanks alone
are the descendant combinator; around any other they mean nothing. -/
def combinator? (input : Text) : Option (Combinator × Text) :=
  match Text.skipBlanks input with
  | '>' :: rest => some (.child, Text.skipBlanks rest)
  | '+' :: rest => some (.adjacent, Text.skipBlanks rest)
  | '~' :: rest => some (.general, Text.skipBlanks rest)
  | rest => if rest.length < input.length then some (.descendant, rest) else none

theorem length_le_of_combinator? {input rest : Text} {combinator : Combinator}
    (h : combinator? input = some (combinator, rest)) :
    rest.length ≤ input.length := by
  have hskip := Text.length_skipBlanks_le input
  unfold combinator? at h
  split at h
  · rename_i after hafter
    have := Text.length_skipBlanks_le after
    cases h
    rw [hafter, List.length_cons] at hskip
    omega
  · rename_i after hafter
    have := Text.length_skipBlanks_le after
    cases h
    rw [hafter, List.length_cons] at hskip
    omega
  · rename_i after hafter
    have := Text.length_skipBlanks_le after
    cases h
    rw [hafter, List.length_cons] at hskip
    omega
  · split at h
    · cases h
      exact hskip
    · cases h

/-- The links of a selector whose first compound has been read.  A combinator
without a compound behind it, for whatever reason, is left unread. -/
def readLinksWith (argument : ArgumentReader) (compound : Compound)
    (input : Text) : Selector × Text :=
  match _hcombinator : combinator? input with
  | none => ([⟨compound, .none⟩], input)
  | some (combinator, behind) =>
      match _hnext : Compound.readWith argument behind with
      | .error _ => ([⟨compound, .none⟩], input)
      | .ok (next, rest) =>
          let found := readLinksWith argument next rest
          (⟨compound, combinator⟩ :: found.1, found.2)
termination_by input.length
decreasing_by
  have := length_le_of_combinator? _hcombinator
  have := Compound.length_lt_of_readWith _hnext
  omega

def readWith (argument : ArgumentReader) (input : Text) :
    Except Fault (Selector × Text) :=
  (Compound.readWith argument input).map fun (compound, rest) =>
    readLinksWith argument compound rest

theorem readLinksWith_of_none {argument : ArgumentReader} {compound : Compound}
    {input : Text} (h : combinator? input = none) :
    readLinksWith argument compound input = ([⟨compound, .none⟩], input) := by
  rw [readLinksWith]
  split <;> rename_i heq <;> cases h.symm.trans heq
  rfl

theorem readLinksWith_of_error {argument : ArgumentReader}
    {compound : Compound} {input behind : Text} {combinator : Combinator}
    {fault : Fault} (hcombinator : combinator? input = some (combinator, behind))
    (hnext : Compound.readWith argument behind = .error fault) :
    readLinksWith argument compound input = ([⟨compound, .none⟩], input) := by
  rw [readLinksWith]
  split <;> rename_i heq <;> cases hcombinator.symm.trans heq
  split <;> rename_i heq <;> cases hnext.symm.trans heq
  rfl

theorem readLinksWith_of_ok {argument : ArgumentReader}
    {compound next : Compound} {input behind rest : Text}
    {combinator : Combinator}
    (hcombinator : combinator? input = some (combinator, behind))
    (hnext : Compound.readWith argument behind = .ok (next, rest)) :
    readLinksWith argument compound input =
      (⟨compound, combinator⟩ :: (readLinksWith argument next rest).1,
        (readLinksWith argument next rest).2) := by
  rw [readLinksWith]
  split <;> rename_i heq <;> cases hcombinator.symm.trans heq
  split <;> rename_i heq <;> cases hnext.symm.trans heq
  rfl

theorem length_le_of_readLinksWith (argument : ArgumentReader)
    (compound : Compound) (input : Text) :
    (readLinksWith argument compound input).2.length ≤ input.length := by
  fun_induction readLinksWith argument compound input with
  | case1 => exact Nat.le_refl _
  | case2 => exact Nat.le_refl _
  | case3 compound input combinator behind hcombinator next rest hnext found ih =>
      have := length_le_of_combinator? hcombinator
      have := Compound.length_lt_of_readWith hnext
      change (readLinksWith argument next rest).2.length ≤ input.length
      omega

/-- Reading a selector uses up at least one character. -/
theorem length_lt_of_readWith {argument : ArgumentReader} {input rest : Text}
    {selector : Selector} (h : readWith argument input = .ok (selector, rest)) :
    rest.length < input.length := by
  obtain ⟨⟨compound, after⟩, hcompound, hvalue⟩ := exists_of_map_eq_ok h
  have hlinks := length_le_of_readLinksWith argument compound after
  rw [show readLinksWith argument compound after = (selector, rest) from hvalue]
    at hlinks
  exact Nat.lt_of_le_of_lt hlinks (Compound.length_lt_of_readWith hcompound)

end Cascade.Selector
