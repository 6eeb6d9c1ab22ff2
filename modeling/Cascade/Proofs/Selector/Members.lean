import Mathlib.Data.List.Forall2
import Cascade.Proofs.Selector.Whole
import Cascade.Selector.Equality

/-!
# Lists are read member by member

A text that is read as a selector to its last character is read as the same
selector in front of a comma, since nothing that ends there could have gone on.
So a list is had by writing its members one behind the other.  A comma inside a
member stands in brackets, in an argument or behind a backslash, where it belongs
to the member.
-/

namespace Cascade.Selector

variable {selector : Selector} {selectors : List Selector} {text front : Text}
  {texts : List Text}

theorem endsBefore_nil (selector : Selector) : EndsBefore selector [] :=
  fun _ _ simple _ => simple.endsBefore_nil

/-- The texts of a selector are those that are read as it to their end. -/
theorem read_eq_ok_nil_iff : read text = .ok (selector, []) ↔ Spells selector text := by
  constructor
  · intro h
    obtain ⟨spelled, htext, hspells, _⟩ := exists_of_read h
    rwa [htext, List.append_nil]
  · intro h
    have hread := h.read (endsBefore_nil selector) (by simp [Delimits])
    rwa [List.append_nil] at hread

/-- Texts of selectors with a comma and a space between neighbours are a text of
the list. -/
theorem spellsList_intercalate (hfront : Text.IsBlank front) (hne : texts ≠ [])
    (h : List.Forall₂ (fun text selector => Spells selector text) texts selectors) :
    SpellsList selectors (front ++ List.intercalate [',', ' '] texts) := by
  induction h generalizing front with
  | nil => exact absurd rfl hne
  | @cons text selector texts selectors hspells hrest ih =>
      cases hrest with
      | nil =>
          have hlast := SpellsList.last hfront hspells (endsBefore_nil selector)
            Text.isBlank_nil
          rw [List.append_nil] at hlast
          rwa [List.intercalate_singleton]
      | @cons next other texts selectors hnext hrest =>
          have htail := ih Text.isBlank_space (List.cons_ne_nil _ _)
          have hlist := SpellsList.cons hfront hspells (endsBefore_nil selector)
            Text.isBlank_nil htail
          rw [List.intercalate_cons_cons, List.append_assoc]
          exact hlist

/-- The list of some members is read as these members, in their order and with
their weights, whatever commas they hold. -/
theorem listOfText_intercalate (hne : texts ≠ [])
    (h : List.Forall₂ (fun text selector => read text = .ok (selector, [])) texts selectors) :
    listOfText (List.intercalate [',', ' '] texts) = .ok selectors ∧
      specificities (List.intercalate [',', ' '] texts) =
        .ok (selectors.map specificity) := by
  have hspells : SpellsList selectors (List.intercalate [',', ' '] texts) :=
    spellsList_intercalate Text.isBlank_nil hne
      (h.imp fun _ _ hread => read_eq_ok_nil_iff.mp hread)
  have hlist : listOfText (List.intercalate [',', ' '] texts) = .ok selectors :=
    listOfText_eq_ok_iff.mpr
      ⟨_, [], (List.append_nil _).symm, hspells, by simp, ends_nil⟩
  refine ⟨hlist, ?_⟩
  rw [specificities, hlist]
  rfl

/-- Commas in a quoted value, in arguments of both kinds and behind a backslash,
and an open escape in front of the comma that separates. -/
theorem listOfText_intercalate_commas :
    ∃ texts selectors,
      texts = ["[a=\",\"]:f(x, \"),\")".toList, ".a\\,b > :is(c, d)".toList,
        "\\31".toList, "*".toList] ∧
      List.Forall₂ (fun text selector => read text = .ok (selector, [])) texts selectors ∧
      List.intercalate [',', ' '] texts =
        "[a=\",\"]:f(x, \"),\"), .a\\,b > :is(c, d), \\31, *".toList ∧
      listOfText (List.intercalate [',', ' '] texts) = .ok selectors ∧
      specificities (List.intercalate [',', ' '] texts) =
        .ok [⟨0, 0, 2, 0⟩, ⟨0, 0, 1, 1⟩, ⟨0, 0, 0, 1⟩, ⟨0, 0, 0, 0⟩] := by
  have hread : List.Forall₂ (fun text selector => read text = .ok (selector, []))
      ["[a=\",\"]:f(x, \"),\")".toList, ".a\\,b > :is(c, d)".toList, "\\31".toList,
        "*".toList]
      [[⟨[.attribute ['a'] "\",\"".toList, .textFunction ['f'] "x, \"),\"".toList], .none⟩],
        [⟨[.className "a\\,b".toList], .child⟩,
          ⟨[.selectorFunction "is".toList
            [[⟨[.element ['c']], .none⟩], [⟨[.element ['d']], .none⟩]]], .none⟩],
        [⟨[.element "\\31".toList], .none⟩], [⟨[.universal], .none⟩]] := by
    refine .cons ?_ (.cons ?_ (.cons ?_ (.cons ?_ .nil)))
    all_goals decide +kernel
  have hlist := listOfText_intercalate (List.cons_ne_nil _ _) hread
  exact ⟨_, _, rfl, hread, by decide +kernel, hlist.1, hlist.2⟩

end Cascade.Selector
