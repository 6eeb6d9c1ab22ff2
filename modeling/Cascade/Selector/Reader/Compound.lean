import Cascade.Selector.Reader.Simple

/-!
# Reading a compound

A compound is a run of simple selectors without a gap.  Every simple selector
uses up some text, which ends the run.
-/

namespace Cascade

namespace Compound

/-- The simple selectors that follow without a gap.  A recoverable fault ends
the compound there. -/
def readTailWith (argument : ArgumentReader) (input : Text) :
    Except Fault (Compound × Text) :=
  match _h : Simple.readWith argument input with
  | .ok (simple, rest) =>
      (readTailWith argument rest).map fun (tail, after) =>
        (simple :: tail, after)
  | .error fault =>
      match fault.severity with
      | .recoverable => .ok ([], input)
      | .committed => .error fault
termination_by input.length
decreasing_by exact Simple.length_lt_of_readWith _h

def readWith (argument : ArgumentReader) (input : Text) :
    Except Fault (Compound × Text) :=
  match Simple.readWith argument input with
  | .ok (simple, rest) =>
      (readTailWith argument rest).map fun (tail, after) =>
        (simple :: tail, after)
  | .error fault => .error fault

end Compound

theorem Compound.readTailWith_of_ok {argument : ArgumentReader}
    {input rest : Text} {simple : Simple}
    (h : Simple.readWith argument input = .ok (simple, rest)) :
    readTailWith argument input =
      (readTailWith argument rest).map fun (tail, after) =>
        (simple :: tail, after) := by
  rw [readTailWith]
  split <;> rename_i heq <;> cases h.symm.trans heq
  rfl

theorem Compound.readTailWith_of_error {argument : ArgumentReader}
    {input : Text} {fault : Fault}
    (h : Simple.readWith argument input = .error fault) :
    readTailWith argument input =
      match fault.severity with
      | .recoverable => .ok ([], input)
      | .committed => .error fault := by
  rw [readTailWith]
  split <;> rename_i heq <;> cases h.symm.trans heq
  rfl

theorem Compound.length_le_of_readTailWith {argument : ArgumentReader}
    {input rest : Text} {compound : Compound}
    (h : readTailWith argument input = .ok (compound, rest)) :
    rest.length ≤ input.length := by
  fun_induction readTailWith argument input generalizing compound with
  | case1 input simple after hsimple ih =>
      have hlt := Simple.length_lt_of_readWith hsimple
      obtain ⟨⟨tail, last⟩, htail, hvalue⟩ := exists_of_map_eq_ok h
      cases hvalue
      exact Nat.le_of_lt (Nat.lt_of_le_of_lt (ih htail) hlt)
  | case2 input fault hfault hsimple =>
      cases h
      exact Nat.le_refl _
  | case3 => cases h

/-- Reading a compound uses up at least one character. -/
theorem Compound.length_lt_of_readWith {argument : ArgumentReader}
    {input rest : Text} {compound : Compound}
    (h : readWith argument input = .ok (compound, rest)) :
    rest.length < input.length := by
  unfold readWith at h
  split at h
  · rename_i simple after hsimple
    have hlt := Simple.length_lt_of_readWith hsimple
    obtain ⟨⟨tail, last⟩, htail, hvalue⟩ := exists_of_map_eq_ok h
    cases hvalue
    exact Nat.lt_of_le_of_lt (Compound.length_le_of_readTailWith htail) hlt
  · cases h

end Cascade
