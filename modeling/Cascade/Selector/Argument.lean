import Cascade.Selector.Reader.Members

/-!
# Arguments that are selectors

A function's argument is read by the very reader in which the function stands.
The recursion is well founded because an argument is shorter than the text
around it: the readers ask about shorter texts only, so two argument readers
that agree on those give the same result.  `readArgument_eq` is the equation
this leaves, without a trace of the bound.
-/

namespace Cascade

/-- Two argument readers that give the same answer on every shorter text. -/
def AgreeBelow (input : Text) (first second : ArgumentReader) : Prop :=
  ∀ inner : Text, inner.length < input.length → first inner = second inner

theorem AgreeBelow.mono {input rest : Text} {first second : ArgumentReader}
    (h : AgreeBelow input first second) (hle : rest.length ≤ input.length) :
    AgreeBelow rest first second :=
  fun inner hinner => h inner (Nat.lt_of_lt_of_le hinner hle)

theorem Simple.readFunction_congr {input name : Text}
    {first second : ArgumentReader}
    (h : ∀ inner : Text, inner.length ≤ input.length →
      first inner = second inner) :
    readFunction first name input = readFunction second name input := by
  unfold readFunction
  split
  · rename_i content rest hcontent
    have happend := congrArg List.length (Enclosed.append_of_groupContent input)
    rw [hcontent] at happend
    simp only [List.length_append, List.length_cons] at happend
    rw [h content (by omega)]
  · rfl

theorem Simple.readWith_congr {input : Text} {first second : ArgumentReader}
    (h : AgreeBelow input first second) :
    readWith first input = readWith second input := by
  unfold readWith
  split <;> try rfl
  rename_i rest _
  split <;> try rfl
  rename_i name inside hname
  have hident := Ident.length_lt_of_read? hname
  apply Simple.readFunction_congr
  intro inner hinner
  apply h
  simp only [List.length_cons] at hident ⊢
  omega

theorem Compound.readTailWith_congr {input : Text}
    {first second : ArgumentReader} (h : AgreeBelow input first second) :
    readTailWith first input = readTailWith second input := by
  have hsimple := Simple.readWith_congr h
  cases hfirst : Simple.readWith first input with
  | error fault =>
      rw [readTailWith_of_error hfirst,
        readTailWith_of_error (hsimple.symm.trans hfirst)]
  | ok found =>
      obtain ⟨simple, rest⟩ := found
      have hlt := Simple.length_lt_of_readWith hfirst
      rw [readTailWith_of_ok hfirst,
        readTailWith_of_ok (hsimple.symm.trans hfirst),
        readTailWith_congr (h.mono (Nat.le_of_lt hlt))]
termination_by input.length

theorem Compound.readWith_congr {input : Text} {first second : ArgumentReader}
    (h : AgreeBelow input first second) :
    readWith first input = readWith second input := by
  unfold readWith
  rw [← Simple.readWith_congr h]
  split
  · rename_i simple rest hsimple
    have hlt := Simple.length_lt_of_readWith hsimple
    rw [readTailWith_congr (h.mono (Nat.le_of_lt hlt))]
  · rfl

namespace Selector

theorem readLinksWith_congr {compound : Compound} {input : Text}
    {first second : ArgumentReader} (h : AgreeBelow input first second) :
    readLinksWith first compound input =
      readLinksWith second compound input := by
  cases hcombinator : combinator? input with
  | none =>
      rw [readLinksWith_of_none hcombinator, readLinksWith_of_none hcombinator]
  | some link =>
      obtain ⟨combinator, behind⟩ := link
      have hbehind := length_le_of_combinator? hcombinator
      have hcompound := Compound.readWith_congr (h.mono hbehind)
      cases hnext : Compound.readWith first behind with
      | error fault =>
          rw [readLinksWith_of_error hcombinator hnext,
            readLinksWith_of_error hcombinator (hcompound.symm.trans hnext)]
      | ok found =>
          obtain ⟨next, rest⟩ := found
          have hlt := Compound.length_lt_of_readWith hnext
          rw [readLinksWith_of_ok hcombinator hnext,
            readLinksWith_of_ok hcombinator (hcompound.symm.trans hnext),
            readLinksWith_congr (h.mono (by omega))]
termination_by input.length

theorem readWith_congr {input : Text} {first second : ArgumentReader}
    (h : AgreeBelow input first second) :
    readWith first input = readWith second input := by
  unfold readWith
  rw [← Compound.readWith_congr h]
  cases hcompound : Compound.readWith first input with
  | error fault => rfl
  | ok found =>
      obtain ⟨compound, rest⟩ := found
      have hlt := Compound.length_lt_of_readWith hcompound
      simp only [Except.map]
      rw [readLinksWith_congr (h.mono (Nat.le_of_lt hlt))]

theorem readMembersWith_congr {input : Text} {first second : ArgumentReader}
    (h : AgreeBelow input first second) :
    readMembersWith first input = readMembersWith second input := by
  by_cases hcomma : ∃ behind, Text.skipBlanks input = ',' :: behind
  · obtain ⟨behind, hcomma⟩ := hcomma
    have hinput : behind.length < input.length := by
      have hskip := Text.length_skipBlanks_le input
      rw [hcomma, List.length_cons] at hskip
      omega
    have hbehind := Text.length_skipBlanks_le behind
    have hshort : (Text.skipBlanks behind).length ≤ input.length := by omega
    have hselector := readWith_congr (h.mono hshort)
    cases hnext : readWith first (Text.skipBlanks behind) with
    | error fault =>
        rw [readMembersWith_of_error hcomma hnext,
          readMembersWith_of_error hcomma (hselector.symm.trans hnext)]
    | ok found =>
        obtain ⟨selector, rest⟩ := found
        have hlt := length_lt_of_readWith hnext
        rw [readMembersWith_of_ok hcomma hnext,
          readMembersWith_of_ok hcomma (hselector.symm.trans hnext),
          readMembersWith_congr (h.mono (by omega))]
  · have hno : ∀ behind, Text.skipBlanks input ≠ ',' :: behind :=
      fun behind heq => hcomma ⟨behind, heq⟩
    rw [readMembersWith_of_no_comma hno, readMembersWith_of_no_comma hno]
termination_by input.length

theorem readListWith_congr {input : Text} {first second : ArgumentReader}
    (h : AgreeBelow input first second) :
    readListWith first input = readListWith second input := by
  have hskip := Text.length_skipBlanks_le input
  unfold readListWith
  rw [← readWith_congr (h.mono hskip)]
  split
  · rename_i selector rest hselector
    have hlt := length_lt_of_readWith hselector
    rw [readMembersWith_congr (h.mono (by omega))]
  · rfl

/-- The reader of function arguments.  It is only asked about texts inside the
one it was given, so the bound is never felt. -/
def readArgument (content : Text) : Except Fault (List Selector) :=
  readArgumentWith (fun inner =>
    if inner.length < content.length then readArgument inner
    else .error (.committed .endOfText inner)) content
termination_by content.length

/-- An argument is read by the reader in which its function stands. -/
theorem readArgument_eq (content : Text) :
    readArgument content = readArgumentWith readArgument content := by
  rw [readArgument]
  unfold readArgumentWith
  rw [readListWith_congr]
  intro inner hinner
  simp [hinner]

end Selector

def Simple.read (input : Text) : Except Fault (Simple × Text) :=
  Simple.readWith Selector.readArgument input

def Compound.read (input : Text) : Except Fault (Compound × Text) :=
  Compound.readWith Selector.readArgument input

def Selector.read (input : Text) : Except Fault (Selector × Text) :=
  Selector.readWith Selector.readArgument input

def Selector.readList (input : Text) : Except Fault (List Selector × Text) :=
  Selector.readListWith Selector.readArgument input

end Cascade
