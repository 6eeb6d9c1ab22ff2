import Cascade.Proofs.Selector.Complete
import Cascade.Proofs.Selector.Sound
import Cascade.Selector.Whole

/-!
# The texts of a list, from end to end

A whole text is read as a list of selectors exactly if it is one of the texts of
that list, with nothing behind it but white space at which readers stop.  Only
few characters are such: a blank belongs to the list, and most other white space
would be read as a name.
-/

namespace Cascade

/-! ## White space that is left -/

theorem Simple.readWith_spaces {input : Text}
    (h : ∀ c ∈ input, Text.isSpace c = true) (argument : ArgumentReader) :
    readWith argument input = readNamed input .element input := by
  cases input with
  | nil => rfl
  | cons c input =>
      apply readWith_of_not_isMark
      apply Bool.eq_false_iff.mpr
      intro hmark
      have hspace := h c (List.mem_cons_self ..)
      simp only [isMark, Bool.or_eq_true, beq_iff_eq] at hmark
      rcases hmark with ((((rfl | rfl) | rfl) | rfl) | rfl) | rfl <;>
        exact absurd hspace (by decide)

/-- In white space there are only names, and whatever else ends a compound. -/
theorem Compound.exists_readTailWith_spaces {input : Text}
    (h : ∀ c ∈ input, Text.isSpace c = true) (argument : ArgumentReader) :
    ∃ found, readTailWith argument input = .ok found := by
  induction hlength : input.length using Nat.strongRecOn generalizing input with
  | ind length ih =>
      cases hname : Ident.read? input with
      | none =>
          have hsimple : Simple.readWith argument input =
              .error (.recoverable .name input) := by
            rw [Simple.readWith_spaces h, Simple.readNamed, hname]
          exact ⟨_, readTailWith_of_error hsimple⟩
      | some found =>
          obtain ⟨name, rest⟩ := found
          have hsimple : Simple.readWith argument input =
              .ok (.element name, rest) := by
            rw [Simple.readWith_spaces h, Simple.readNamed, hname]
          have hrest : ∀ c ∈ rest, Text.isSpace c = true := by
            rw [← Ident.append_of_read? hname] at h
            exact fun c hc => h c (List.mem_append_right _ hc)
          obtain ⟨⟨tail, after⟩, htail⟩ := ih rest.length
            (hlength ▸ Ident.length_lt_of_read? hname) hrest rfl
          rw [readTailWith_of_ok hsimple, htail]
          exact ⟨_, rfl⟩

/-- White space that starts with a part of a name is a compound. -/
theorem Compound.exists_readWith_spaces {c : Char} {input : Text}
    (hname : Ident.isNameChar c = true)
    (h : ∀ d ∈ c :: input, Text.isSpace d = true) (argument : ArgumentReader) :
    ∃ found, readWith argument (c :: input) = .ok found := by
  obtain ⟨⟨compound, rest⟩, htail⟩ := exists_readTailWith_spaces h argument
  refine ⟨_, readWith_of_readTailWith ?_ htail⟩
  rintro rfl
  obtain ⟨name, after, hread⟩ := Ident.exists_read?_of_isNameChar hname input
  have hsimple : Simple.readWith argument (c :: input) =
      .ok (.element name, after) := by
    rw [Simple.readWith_spaces h, Simple.readNamed, hread]
  rw [readTailWith_of_ok hsimple] at htail
  obtain ⟨_, _, hvalue⟩ := exists_of_map_eq_ok htail
  cases hvalue

/-! ## Where readers stop -/

/-- Behind a compound there is no part of a name. -/
theorem Compound.not_isNameChar_of_readTailWith {argument : ArgumentReader}
    {input rest : Text} {compound : Compound}
    (h : readTailWith argument input = .ok (compound, rest)) :
    ∀ c ∈ rest.head?, Ident.isNameChar c = false := by
  fun_induction readTailWith argument input generalizing compound with
  | case1 input simple after hsimple ih =>
      obtain ⟨⟨tail, last⟩, htail, hvalue⟩ := exists_of_map_eq_ok h
      cases hvalue
      exact ih htail
  | case2 input fault hfault hsimple =>
      cases h
      intro c hc
      obtain ⟨behind, rfl⟩ := List.head?_eq_some_iff.mp hc
      apply Bool.eq_false_iff.mpr
      intro hname
      obtain ⟨name, after, hread⟩ := Ident.exists_read?_of_isNameChar hname behind
      rw [Simple.readWith_of_not_isMark (Simple.not_isMark_of_nameStart (.inr hname)),
        Simple.readNamed, hread] at hfault
      cases hfault
  | case3 => cases h

theorem Compound.not_isNameChar_of_readWith {argument : ArgumentReader}
    {input rest : Text} {compound : Compound}
    (h : readWith argument input = .ok (compound, rest)) :
    ∀ c ∈ rest.head?, Ident.isNameChar c = false := by
  unfold readWith at h
  split at h
  · obtain ⟨⟨tail, last⟩, htail, hvalue⟩ := exists_of_map_eq_ok h
    cases hvalue
    exact not_isNameChar_of_readTailWith htail
  · cases h

namespace Selector

/-- A name that starts neither here nor behind a combinator does not start behind
blanks. -/
theorem combinator?_of_isNameChar {input rest : Text} {c : Char}
    (hinput : ∀ d ∈ input.head?, Ident.isNameChar d = false)
    (hskip : Text.skipBlanks input = c :: rest)
    (hname : Ident.isNameChar c = true) :
    combinator? input = some (.descendant, c :: rest) := by
  obtain ⟨blanks, hblanks, happend, _⟩ := Text.exists_skipBlanks input
  rw [hskip] at happend
  have hne : blanks ≠ [] := by
    rintro rfl
    rw [hinput c (by rw [happend]; rfl)] at hname
    cases hname
  rw [happend]
  exact combinator?_append (.descendant hne hblanks) (by simp [Simple.isStart, hname]) rest

/-- White space that a selector leaves, without the blanks at its front, starts
with no part of a name. -/
theorem not_isNameChar_of_readLinksWith (argument : ArgumentReader)
    (compound : Compound) {input : Text}
    (hinput : ∀ c ∈ input.head?, Ident.isNameChar c = false)
    (hspaces : ∀ c ∈ (readLinksWith argument compound input).2,
      Text.isSpace c = true) :
    ∀ c ∈ (Text.skipBlanks (readLinksWith argument compound input).2).head?,
      Ident.isNameChar c = false := by
  fun_induction readLinksWith argument compound input with
  | case1 compound input hnone =>
      intro c hc
      obtain ⟨rest, hskip⟩ := List.head?_eq_some_iff.mp hc
      apply Bool.eq_false_iff.mpr
      intro hname
      rw [combinator?_of_isNameChar hinput hskip hname] at hnone
      cases hnone
  | case2 compound input combinator behind hcombinator fault hnext =>
      intro c hc
      obtain ⟨rest, hskip⟩ := List.head?_eq_some_iff.mp hc
      apply Bool.eq_false_iff.mpr
      intro hname
      rw [combinator?_of_isNameChar hinput hskip hname] at hcombinator
      cases hcombinator
      obtain ⟨found, hread⟩ := Compound.exists_readWith_spaces hname
        (fun d hd => hspaces d (Text.mem_of_mem_skipBlanks (hskip ▸ hd))) argument
      cases hread.symm.trans hnext
  | case3 compound input combinator behind hcombinator next rest hnext found ih =>
      exact ih (Compound.not_isNameChar_of_readWith hnext) hspaces

theorem not_isNameChar_of_readWith {argument : ArgumentReader}
    {input rest : Text} {selector : Selector}
    (h : readWith argument input = .ok (selector, rest))
    (hspaces : ∀ c ∈ rest, Text.isSpace c = true) :
    ∀ c ∈ (Text.skipBlanks rest).head?, Ident.isNameChar c = false := by
  obtain ⟨⟨compound, behind⟩, hcompound, hvalue⟩ := exists_of_map_eq_ok h
  have hlinks := not_isNameChar_of_readLinksWith argument compound
    (Compound.not_isNameChar_of_readWith hcompound)
  rw [show readLinksWith argument compound behind = (selector, rest) from hvalue]
    at hlinks
  exact hlinks hspaces

theorem not_isNameChar_of_readMembersWith {argument : ArgumentReader}
    {input rest : Text} {members : List Selector}
    (h : readMembersWith argument input = .ok (members, rest))
    (hinput : (∀ c ∈ input, Text.isSpace c = true) →
      ∀ c ∈ (Text.skipBlanks input).head?, Ident.isNameChar c = false)
    (hspaces : ∀ c ∈ rest, Text.isSpace c = true) :
    ∀ c ∈ (Text.skipBlanks rest).head?, Ident.isNameChar c = false := by
  fun_induction readMembersWith argument input generalizing members with
  | case1 input behind hcomma next after hnext ih =>
      obtain ⟨⟨more, last⟩, hmore, hvalue⟩ := exists_of_map_eq_ok h
      cases hvalue
      exact ih hmore (not_isNameChar_of_readWith hnext)
  | case2 =>
      cases h
      exact hinput hspaces
  | case3 => cases h
  | case4 =>
      cases h
      exact hinput hspaces

theorem not_isNameChar_of_readListWith {argument : ArgumentReader}
    {input rest : Text} {members : List Selector}
    (h : readListWith argument input = .ok (members, rest))
    (hspaces : ∀ c ∈ rest, Text.isSpace c = true) :
    ∀ c ∈ (Text.skipBlanks rest).head?, Ident.isNameChar c = false := by
  unfold readListWith at h
  split at h
  · rename_i selector after hselector
    obtain ⟨⟨more, last⟩, hmore, hvalue⟩ := exists_of_map_eq_ok h
    cases hvalue
    exact not_isNameChar_of_readMembersWith hmore
      (not_isNameChar_of_readWith hselector) hspaces
  · cases h

/-! ## Whole texts -/

/-- A text is a list of selectors if it is a text of theirs, with nothing behind
it but white space at which the list ends. -/
def IsText (members : List Selector) (source : Text) : Prop :=
  ∃ list after, source = list ++ after ∧ SpellsList members list ∧
    (∀ c ∈ after, Text.isSpace c = true) ∧ Ends after

/-- A list is read from exactly its texts. -/
theorem listOfText_eq_ok_iff {source : Text} {members : List Selector} :
    listOfText source = .ok members ↔ IsText members source := by
  constructor
  · intro h
    unfold listOfText whole at h
    split at h
    · cases h
    · rename_i rest hlist
      split at h
      · rename_i hrest
        cases h
        have hspaces := Text.trim_eq_nil_iff.mp hrest
        have hbehind : ∀ c ∈ Text.skipBlanks rest, Text.isSpace c = true :=
          fun c hc => hspaces c (Text.mem_of_mem_skipBlanks hc)
        have hstart := not_isNameChar_of_readListWith hlist hspaces
        obtain ⟨list, hsource, hspells⟩ :=
          exists_of_readListWith readArgument_sound hlist (by
            intro hcomma
            exact absurd (hbehind ',' (List.mem_of_mem_head? hcomma)) (by decide))
        refine ⟨list, _, hsource, hspells, hbehind, fun c hc => .inr ⟨?_, ?_⟩⟩
        · simp [Ident.isGap, hstart c hc, hbehind c (List.mem_of_mem_head? hc)]
        · obtain ⟨_, _, _, hblank⟩ := Text.exists_skipBlanks rest
          exact hblank c hc
      · cases h
  · rintro ⟨list, after, rfl, hspells, hspaces, hends⟩
    obtain ⟨back, hback, hread⟩ := hspells.read hends (by
      intro hcomma
      exact absurd (hspaces ',' (List.mem_of_mem_head? hcomma)) (by decide))
    have htrim : Text.trim (back ++ after) = [] :=
      Text.trim_eq_nil_iff.mpr (List.forall_mem_append.mpr
        ⟨fun c hc => Text.isSpace_of_isBlank (hback c hc), hspaces⟩)
    rw [listOfText, readList, hread]
    simp only [whole, htrim, if_true]

/-- A text has one weight if it is a text of one selector. -/
theorem specificities_eq_singleton_iff {source : Text} {weight : Specificity} :
    specificities source = .ok [weight] ↔
      ∃ selector, IsText [selector] source ∧ specificity selector = weight := by
  constructor
  · intro h
    obtain ⟨members, hmembers, hweights⟩ := exists_of_map_eq_ok h
    obtain ⟨selector, rfl, hweight⟩ := List.map_eq_singleton_iff.mp hweights
    exact ⟨selector, listOfText_eq_ok_iff.mp hmembers, hweight⟩
  · rintro ⟨selector, htext, rfl⟩
    rw [specificities, listOfText_eq_ok_iff.mpr htext]
    rfl

end Selector

end Cascade
