import Cascade.Proofs.Selector.Settled
import Cascade.Proofs.Selector.Whole
import Cascade.Selector.Equality

/-!
# Printing and reading

Reading undoes printing on every well-formed selector.  A selector that was read
is printed as a text of itself exactly if it is settled; if it is only intact,
the printed text is read as `asRead` of it.
-/

namespace Cascade.Selector

/-- The printed text of a printable selector is read to its end. -/
theorem Printable.read_text {selector : Selector} (h : selector.Printable) :
    read (text selector) = .ok (asRead selector, []) := by
  have hstop : Delimits [] := by simp [Delimits]
  have hread := h.spells.read Spells.endsBefore_nil hstop
  rwa [List.append_nil] at hread

/-- The printed list of printable selectors is read to its end. -/
theorem listOfText_listText {members : List Selector} (hne : members ≠ [])
    (h : ∀ member ∈ members, Printable member) :
    listOfText (listText members) = .ok (listAsRead members) := by
  have hspells := spells_listText hne (fun member hmember => (h member hmember).spells)
    Text.isBlank_nil
  exact listOfText_eq_ok_iff.mpr
    ⟨_, [], (List.append_nil _).symm, hspells, by simp, ends_nil⟩

/-- A selector that is read from its own printed text is settled, whatever
follows it. -/
theorem settled_of_listOfText {selector : Selector} {members : List Selector}
    (h : listOfText (text selector) = .ok (selector :: members)) :
    Settled selector := by
  obtain ⟨list, after, hsource, hlist, _⟩ := listOfText_eq_ok_iff.mp h
  obtain ⟨front, first, rest, rfl, hfront, hspells⟩ := hlist.exists_first
  have hsame : front ++ (first ++ (rest ++ after)) =
      [] ++ (text selector ++ []) := by
    rw [List.append_nil, List.nil_append, hsource]
    simp
  exact (hspells.settled (hspells.append_inj hfront Text.isBlank_nil hsame).2).2

/-- Reading undoes printing on every well-formed selector. -/
theorem read_text_of_wellFormed {selector : Selector}
    (h : selector.WellFormed) : read (text selector) = .ok (selector, []) := by
  rw [h.printable.read_text, asRead_of_sealed h.printable h.sealed]

theorem read_text_of_wellFormed_negation :
    WellFormed [⟨[.element ['a'], .selectorFunction "not".toList
        [[⟨[.className ['b']], .none⟩], [⟨[.attribute ['x'] []], .none⟩]]],
        .none⟩] ∧
      read (text [⟨[.element ['a'], .selectorFunction "not".toList
        [[⟨[.className ['b']], .none⟩], [⟨[.attribute ['x'] []], .none⟩]]],
        .none⟩]) =
      .ok ([⟨[.element ['a'], .selectorFunction "not".toList
        [[⟨[.className ['b']], .none⟩], [⟨[.attribute ['x'] []], .none⟩]]],
        .none⟩], []) := by
  have hclass : WellFormed [⟨[.className ['b']], .none⟩] ∧
      HasPlainAttributes [⟨[.className ['b']], .none⟩] :=
    ⟨.intro rfl (by simp [Compound.Joined])
        (by simpa using .className (by decide +kernel)),
      .intro (by simp [Simple.HasPlainAttribute]) (by simp [Simple.members])⟩
  have hattribute : WellFormed [⟨[.attribute ['x'] []], .none⟩] ∧
      HasPlainAttributes [⟨[.attribute ['x'] []], .none⟩] :=
    ⟨.intro rfl (by simp [Compound.Joined])
        (by simpa using .brackets rfl rfl (by decide) (by decide) (by decide)),
      .intro (by simp [Simple.HasPlainAttribute]; decide)
        (by simp [Simple.members])⟩
  have hwhole : WellFormed [⟨[.element ['a'], .selectorFunction "not".toList
      [[⟨[.className ['b']], .none⟩], [⟨[.attribute ['x'] []], .none⟩]]],
      .none⟩] := by
    refine .intro rfl (by simp [Compound.Joined, Simple.isNamedElement]) ?_
    simp only [List.forall_mem_singleton, List.forall_mem_cons]
    exact ⟨.element (by decide +kernel), .selectorFunction (by decide +kernel)
      (by decide +kernel) (by simp) (by simpa using ⟨hclass.1, hattribute.1⟩)
      (by simpa using ⟨hclass.2, hattribute.2⟩)⟩
  exact ⟨hwhole, read_text_of_wellFormed hwhole⟩

/-! ## Texts that were read -/

/-- A text that was read is, but for the white space at its edges, one of the
texts of the selector. -/
theorem spells_of_ofText {source : Text} {selector : Selector}
    (h : ofText source = .ok selector) :
    Spells selector (Text.trim source) := by
  unfold ofText whole at h
  split at h
  · cases h
  · rename_i rest hread
    split at h
    · rename_i hrest
      cases h
      obtain ⟨text, htext, hspells, _⟩ := exists_of_read hread
      have htrimmed := Text.isTrimmed_trim source
      rw [htext] at htrimmed
      obtain rfl := htrimmed.eq_nil_of_append (Text.trim_eq_nil_iff.mp hrest)
      rwa [htext, List.append_nil]
    · cases h

/-- The printed text of a selector that was read has nothing to trim. -/
theorem trim_text_of_ofText {source : Text} {selector : Selector}
    (h : ofText source = .ok selector) :
    Text.trim (text selector) = text selector :=
  Text.trim_eq_self_iff.mpr
    ((spells_of_ofText h).isTrimmed (Text.isTrimmed_trim source))

/-- A selector that was read and is intact is printed as a text of what it is
read as. -/
theorem ofText_text_of_intact {source : Text} {selector : Selector}
    (h : ofText source = .ok selector) (hintact : Intact selector) :
    ofText (text selector) = .ok (asRead selector) := by
  have hprintable := ((spells_of_ofText h).printable hintact).1
  rw [ofText, trim_text_of_ofText h, hprintable.read_text]
  rfl

/-- A selector that was read is read again from its printed text exactly if it
is settled. -/
theorem ofText_text_iff {source : Text} {selector : Selector}
    (h : ofText source = .ok selector) :
    ofText (text selector) = .ok selector ↔ Settled selector := by
  constructor
  · intro hagain
    have hspells := spells_of_ofText hagain
    rw [trim_text_of_ofText h] at hspells
    exact (hspells.settled (rfl : text selector ++ [] = text selector ++ [])).2
  · rintro ⟨hintact, hsealed⟩
    have hprintable := ((spells_of_ofText h).printable hintact).1
    rw [ofText_text_of_intact h hintact, asRead_of_sealed hprintable hsealed]

theorem ofText_text_iff_child :
    ofText "a> .b".toList =
        .ok [⟨[.element ['a']], .child⟩, ⟨[.className ['b']], .none⟩] ∧
      (ofText (text [⟨[.element ['a']], .child⟩, ⟨[.className ['b']], .none⟩]) =
          .ok [⟨[.element ['a']], .child⟩, ⟨[.className ['b']], .none⟩] ↔
        Settled [⟨[.element ['a']], .child⟩, ⟨[.className ['b']], .none⟩]) :=
  have hread : ofText "a> .b".toList =
      .ok [⟨[.element ['a']], .child⟩, ⟨[.className ['b']], .none⟩] := by
    decide +kernel
  ⟨hread, ofText_text_iff hread⟩

/-- Behind an open name the printed space of a descendant is no separator, and
without its escaped space an argument takes the parenthesis along. -/
theorem ofText_text_ne_of_unsettled :
    (ofText ".\\31\tb".toList =
        .ok [⟨[.className "\\31".toList], .descendant⟩,
          ⟨[.element ['b']], .none⟩] ∧
      ofText (text [⟨[.className "\\31".toList], .descendant⟩,
          ⟨[.element ['b']], .none⟩]) ≠
        .ok [⟨[.className "\\31".toList], .descendant⟩,
          ⟨[.element ['b']], .none⟩]) ∧
      ofText ":f(a\\ )".toList =
        .ok [⟨[.textFunction ['f'] "a\\".toList], .none⟩] ∧
      ofText (text [⟨[.textFunction ['f'] "a\\".toList], .none⟩]) ≠
        .ok [⟨[.textFunction ['f'] "a\\".toList], .none⟩] := by
  refine ⟨⟨?_, ?_⟩, ?_, ?_⟩ <;> decide +kernel

end Cascade.Selector
