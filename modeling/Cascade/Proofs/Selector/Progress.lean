import Cascade.Proofs.Selector.Sound
import Cascade.Proofs.Text.Repetition

/-!
# Reading selectors comes to an end

Every reader of selectors advances, so the loops for the conditions of a compound, for
the links of a selector and for the members of a list are over after finitely many
turns.  Only a function makes a reader look into a text again, and what it looks into
stands between the function's parentheses: the recursion goes inwards.
-/

namespace Cascade

variable {input rest content : Text}

/-! ## Names, strings and groups -/

theorem Ident.advances_read : Advances Ident.read := by
  intro input name rest h
  have hread := read_eq_ok_iff.mp h
  exact ⟨⟨name, append_of_read? hread⟩, length_lt_of_read? hread⟩

theorem Enclosed.advances_readString : Advances readString := by
  intro input string rest h
  have hread := readString_eq_ok_iff.mp h
  exact ⟨⟨string, append_of_string? hread⟩, length_lt_of_string? hread⟩

theorem Enclosed.advances_readGroup : Advances readGroup := by
  intro input group rest h
  have hread := readGroup_eq_ok_iff.mp h
  exact ⟨⟨group, append_of_group? hread⟩, length_lt_of_group? hread⟩

/-! ## Compounds -/

theorem Simple.advances_read : Advances Simple.read := by
  intro input simple rest h
  obtain ⟨text, hinput, _⟩ := exists_of_readWith Selector.readArgument_sound h
  exact ⟨⟨text, hinput.symm⟩, length_lt_of_readWith h⟩

theorem Compound.advances_read : Advances Compound.read := by
  intro input compound rest h
  obtain ⟨_, text, hinput, _⟩ := exists_of_readWith Selector.readArgument_sound h
  exact ⟨⟨text, hinput.symm⟩, length_lt_of_readWith h⟩

/-- Behind its first condition a compound is a repetition of conditions. -/
theorem Compound.repeats_readTail :
    Repeats Simple.read (readTailWith Selector.readArgument) :=
  Simple.advances_read.repeats readTailWith_of_ok readTailWith_of_error

namespace Selector

/-! ## Links -/

def nextLink? (input : Text) : Option ((Combinator × Compound) × Text) :=
  match combinator? input with
  | none => none
  | some (combinator, behind) =>
      match Compound.read behind with
      | .error _ => none
      | .ok (compound, rest) => some ((combinator, compound), rest)

theorem nextLink?_eq_some {combinator : Combinator} {compound : Compound}
    (h : nextLink? input = some ((combinator, compound), rest)) :
    ∃ behind, combinator? input = some (combinator, behind) ∧
      Compound.read behind = .ok (compound, rest) := by
  unfold nextLink? at h
  split at h
  · cases h
  · split at h
    · cases h
    · cases h
      exact ⟨_, ‹_›, ‹_›⟩

theorem advances_nextLink? : Advances (.ofOption nextLink?) := by
  rintro input ⟨combinator, compound⟩ rest h
  obtain ⟨behind, hcombinator, hcompound⟩ :=
    nextLink?_eq_some (Reader.ofOption_eq_ok_iff.mp h)
  obtain ⟨gap, hinput, _⟩ := exists_of_combinator? hcombinator
  exact (Compound.advances_read _ _ _ hcompound).mono ⟨gap, hinput.symm⟩

/-- One turn of the loop over the links of a selector. -/
theorem readLinks_eq (compound : Compound) (input : Text) :
    readLinksWith readArgument compound input =
      match nextLink? input with
      | none => ([⟨compound, .none⟩], input)
      | some ((combinator, next), rest) =>
          (⟨compound, combinator⟩ :: (readLinksWith readArgument next rest).1,
            (readLinksWith readArgument next rest).2) := by
  cases hcombinator : combinator? input with
  | none =>
      simp only [nextLink?, hcombinator]
      exact readLinksWith_of_none hcombinator
  | some link =>
      cases hnext : Compound.read link.2 with
      | error fault =>
          simp only [nextLink?, hcombinator, hnext]
          exact readLinksWith_of_error hcombinator hnext
      | ok found =>
          simp only [nextLink?, hcombinator, hnext]
          exact readLinksWith_of_ok hcombinator hnext

theorem advances_read : Advances Selector.read := by
  intro input selector rest h
  obtain ⟨text, hinput, _⟩ := exists_of_readWith readArgument_sound h
  exact ⟨⟨text, hinput.symm⟩, length_lt_of_readWith h⟩

/-! ## Lists -/

theorem skipBlanks_suffix (input : Text) : Text.skipBlanks input <:+ input :=
  List.dropWhile_suffix _

/-- A further member of a list: a comma with a selector behind it, and blanks on either
side of the comma. -/
def readMember : Reader Selector := fun input =>
  match Text.skipBlanks input with
  | ',' :: behind => read (Text.skipBlanks behind)
  | rest => .error (.recoverable .delimiter rest)

theorem advances_readMember : Advances readMember := by
  intro input selector rest h
  have hskip := skipBlanks_suffix input
  unfold readMember at h
  split at h
  · rename_i behind hcomma
    rw [hcomma] at hskip
    have hbehind := (skipBlanks_suffix behind).trans (List.suffix_cons ',' behind)
    exact (advances_read _ _ _ h).mono (hbehind.trans hskip)
  · cases h

/-- Behind its first member a list is a repetition of further members. -/
theorem repeats_readMembers : Repeats readMember (readMembersWith readArgument) := by
  refine advances_readMember.repeats (fun h => ?_) (fun h => ?_)
  · unfold readMember at h
    split at h
    · exact readMembersWith_of_ok ‹_› h
    · cases h
  · unfold readMember at h
    split at h
    · exact readMembersWith_of_error ‹_› h
    · rename_i hcomma
      cases h
      exact readMembersWith_of_no_comma hcomma

theorem advances_readList : Advances readList := by
  intro input members rest h
  unfold readList readListWith at h
  split at h
  · rename_i selector after hselector
    obtain ⟨⟨more, last⟩, hmore, hvalue⟩ := exists_of_map_eq_ok h
    cases hvalue
    have hrepeated := repeats_readMembers after
    rw [hmore] at hrepeated
    have hrest := advances_readMember.suffix_of_repeated hrepeated
    exact ((advances_read _ _ _ hselector).of_suffix hrest).mono (skipBlanks_suffix input)
  · cases h

end Selector

/-! ## Arguments -/

/-- The text that is handed to the reader of arguments where a simple selector is read:
what the parentheses of a function over selectors hold. -/
def Simple.Asks (input content : Text) : Prop :=
  ∃ rest name inside after, input = ':' :: rest ∧
    Ident.read? rest = some (name, '(' :: inside) ∧
    Text.isKeyword listFunctions name = true ∧
    Enclosed.groupContent inside = (content, ')' :: after)

/-- A text that is asked about stands inside the text that is read. -/
theorem Simple.Asks.isInfix (h : Asks input content) :
    content <:+: input ∧ content.length < input.length := by
  obtain ⟨rest, name, inside, after, rfl, hname, _, hcontent⟩ := h
  have happend := Enclosed.append_of_groupContent inside
  rw [hcontent] at happend
  obtain rfl := Ident.append_of_read? hname
  refine ⟨⟨':' :: name ++ ['('], ')' :: after, by simp [← happend]⟩, ?_⟩
  have hinside := congrArg List.length happend
  simp only [List.length_append, List.length_cons] at hinside ⊢
  omega

/-- Nothing else is asked about. -/
theorem Simple.readWith_of_asks {first second : ArgumentReader}
    (h : ∀ content, Asks input content → first content = second content) :
    readWith first input = readWith second input := by
  unfold readWith
  split <;> try rfl
  rename_i rest _
  split <;> try rfl
  rename_i name inside hname
  unfold readFunction
  split <;> try rfl
  rename_i content after hcontent
  split <;> try rfl
  rename_i hkeyword
  rw [h content ⟨rest, name, inside, after, rfl, hname, hkeyword, hcontent⟩]

/-- A list of selectors is read by a recursion into the arguments of its functions, and
these are shorter. -/
structure Selector.ArgumentsShrink : Prop where
  /-- What is asked about stands inside the text that is read. -/
  inside (input content : Text) : Simple.Asks input content →
    content <:+: input ∧ content.length < input.length
  /-- No other text is asked about, -/
  asked (first second : ArgumentReader) (input : Text) :
    (∀ content, Simple.Asks input content → first content = second content) →
      Simple.readWith first input = Simple.readWith second input
  /-- so a list depends on nothing but what is read from shorter texts, -/
  below (first second : ArgumentReader) (input : Text) : AgreeBelow input first second →
    readListWith first input = readListWith second input
  /-- and it is the reader itself that reads them. -/
  recursion (content : Text) :
    readArgument content = readArgumentWith readArgument content

theorem Selector.arguments_shrink : ArgumentsShrink where
  inside _ _ := Simple.Asks.isInfix
  asked _ _ _ := Simple.readWith_of_asks
  below _ _ _ := readListWith_congr
  recursion := readArgument_eq

end Cascade
