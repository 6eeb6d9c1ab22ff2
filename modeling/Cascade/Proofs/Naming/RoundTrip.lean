import Cascade.Proofs.Naming.Walk
import Cascade.Proofs.Selector.Unclosed

/-!
# Rules and their texts

Without fragments a rule's text is read as the selectors of the rule, one by
one, and so are their weights.  With fragments names can be open and arguments
can have lost a part of an escape; what the text of a selector weighs is then
decided by what it is read as.
-/

namespace Cascade

namespace Rule

/-- The selectors of a rule are written as a list. -/
theorem selectorText_eq (rule : Rule) :
    rule.selectorText =
      Selector.listText (rule.selectors.map NamedSelector.selector) := by
  unfold selectorText
  generalize rule.selectors = selectors
  induction selectors with
  | nil => rfl
  | cons named rest ih =>
      cases rest with
      | nil => simp [Selector.listText, NamedSelector.text]
      | cons next rest =>
          simp only [List.map_cons] at ih ⊢
          rw [List.intercalate_cons_cons, ih, Selector.listText, List.append_assoc]
          rfl

end Rule

namespace Selector

/-- The weight of an intact selector's text is the weight of what it is read
as. -/
theorem Assembled.specificities_text {selector : Selector}
    (h : Assembled Simple.IsSpelled selector) (hintact : Intact selector) :
    specificities (text selector) = .ok [specificity (asRead selector)] := by
  have hread := listOfText_listText (List.cons_ne_nil selector [])
    (List.forall_mem_singleton.mpr (h.printable hintact))
  rw [specificities, show text selector = listText [selector] from rfl, hread]
  rfl

theorem Assembled.listOfText_text_iff {selector : Selector}
    (h : Assembled Simple.IsSpelled selector) :
    listOfText (text selector) = .ok [selector] ↔ Settled selector := by
  constructor
  · exact settled_of_listOfText
  · rintro ⟨hintact, hsealed⟩
    have hprintable := h.printable hintact
    have hread := listOfText_listText (List.cons_ne_nil selector [])
      (List.forall_mem_singleton.mpr hprintable)
    rwa [listAsRead, asRead_of_sealed hprintable hsealed] at hread

end Selector

namespace Declaration

variable {table : SymbolTable} {declaration : Declaration} {rules : List Rule}

/-- Without fragments the text of every rule is read as the rule's selectors,
and weighs what their tallies say. -/
theorem listOfText_selectorText (hraw : .raw ∉ declaration.kinds)
    (h : declaration.rules table = .ok rules) {rule : Rule}
    (hrule : rule ∈ rules) :
    Selector.listOfText rule.selectorText =
        .ok (rule.selectors.map NamedSelector.selector) ∧
      Selector.specificities rule.selectorText = .ok rule.specificities := by
  obtain ⟨hne, hnamed⟩ := rules_spec Simple.IsPlain
    (fun _ hplain => hplain) (fun hmem => absurd hmem hraw) h hrule
  have hwellFormed : ∀ member ∈ rule.selectors.map NamedSelector.selector,
      member.WellFormed := by
    simp only [List.forall_mem_map]
    exact fun named hmem => (hnamed named hmem).1.wellFormed
  have hread : Selector.listOfText rule.selectorText =
      .ok (rule.selectors.map NamedSelector.selector) := by
    rw [rule.selectorText_eq, Selector.listOfText_listText (by simpa using hne)
        fun member hmember => (hwellFormed member hmember).printable,
      Selector.listAsRead_eq_self fun member hmember =>
        Selector.asRead_of_sealed (hwellFormed member hmember).printable
          (hwellFormed member hmember).sealed]
  refine ⟨hread, ?_⟩
  rw [Selector.specificities, hread]
  simp only [Except.map, List.map_map, Except.ok.injEq, Rule.specificities]
  exact List.map_congr_left fun named hmem => (hnamed named hmem).2.symm

theorem listOfText_selectorText_option :
    .raw ∉ kinds ⟨.component, ["2x".toList, ['b']], none,
        [⟨.option, [['c']], some [], []⟩]⟩ ∧
      ∃ rule, Declaration.rules .initial ⟨.component, ["2x".toList, ['b']], none,
          [⟨.option, [['c']], some [], []⟩]⟩ = .ok [rule] ∧
        rule.selectorText = "html .\\32 x.\\--c, html .b.\\--c".toList ∧
        Selector.listOfText rule.selectorText =
          .ok (rule.selectors.map NamedSelector.selector) ∧
        Selector.specificities rule.selectorText = .ok rule.specificities := by
  have hraw : .raw ∉ kinds ⟨.component, ["2x".toList, ['b']], none,
      [⟨.option, [['c']], some [], []⟩]⟩ := by decide
  have hrules : Declaration.rules .initial ⟨.component, ["2x".toList, ['b']], none,
      [⟨.option, [['c']], some [], []⟩]⟩ =
      .ok [⟨[⟨[⟨[.element "html".toList], .descendant⟩,
          ⟨[.className "\\32 x".toList, .className "\\--c".toList], .none⟩],
          ⟨0, 2, 1⟩, []⟩,
        ⟨[⟨[.element "html".toList], .descendant⟩,
          ⟨[.className ['b'], .className "\\--c".toList], .none⟩],
          ⟨0, 2, 1⟩, []⟩], []⟩] := by
    decide +kernel
  exact ⟨hraw, _, hrules, by decide +kernel,
    listOfText_selectorText hraw hrules (by simp)⟩

/-- With fragments the text of a selector is read as the selector itself exactly
if it is settled.  It weighs what its tally says exactly if it is the text of
some selector of that weight.  For an intact one that is the selector in which
the spaces behind open names belong to the names; with plain attributes the text
of any other is no text of a selector. -/
theorem specificities_named_text (h : declaration.rules table = .ok rules)
    {rule : Rule} (hrule : rule ∈ rules) {named : NamedSelector}
    (hnamed : named ∈ rule.selectors) :
    (Selector.listOfText named.text = .ok [named.selector] ↔
        Selector.Settled named.selector) ∧
      (Selector.specificities named.text = .ok [named.specificity] ↔
        ∃ other, Selector.IsText [other] named.text ∧
          Selector.specificity other = Selector.specificity named.selector) ∧
      (Selector.Intact named.selector →
        (Selector.specificities named.text = .ok [named.specificity] ↔
          Selector.specificity (Selector.asRead named.selector) =
            Selector.specificity named.selector)) ∧
      (Selector.HasPlainAttributes named.selector →
        ¬ Selector.Intact named.selector →
        ∀ weights, Selector.specificities named.text ≠ .ok weights) := by
  obtain ⟨hassembled, hweight⟩ := (rules_spec Simple.IsSpelled
    (fun _ hplain => hplain.isSpelled) (fun _ _ => Iff.rfl) h hrule).2 named hnamed
  refine ⟨hassembled.listOfText_text_iff, ?_, fun hintact => ?_,
    fun hplain hbroken weights hread => ?_⟩
  · rw [Selector.specificities_eq_singleton_iff, hweight]
  · rw [NamedSelector.text, hassembled.specificities_text hintact, hweight]
    simp
  · obtain ⟨members, hmembers, _⟩ := exists_of_map_eq_ok hread
    exact Selector.listOfText_text_ne_ok hassembled hplain hbroken members hmembers

theorem specificities_named_text_fragments :
    ∃ intact broken, Declaration.rules .initial
        ⟨.component, ["card".toList], none,
          [⟨.raw, ["& > a".toList, "&:f(b\\ )".toList], some [], []⟩]⟩ =
        .ok [⟨[intact, broken], []⟩] ∧
      (Selector.Intact intact.selector ∧
        Selector.specificities intact.text = .ok [intact.specificity]) ∧
      Selector.HasPlainAttributes broken.selector ∧
      ¬ Selector.Intact broken.selector ∧
      ∀ weights, Selector.specificities broken.text ≠ .ok weights := by
  have hrules : Declaration.rules .initial
      ⟨.component, ["card".toList], none,
        [⟨.raw, ["& > a".toList, "&:f(b\\ )".toList], some [], []⟩]⟩ =
      .ok [⟨[⟨[⟨[.className "card".toList], .child⟩,
          ⟨[.element ['a']], .none⟩], ⟨0, 1, 1⟩, []⟩,
        ⟨[⟨[.className "card".toList, .textFunction ['f'] "b\\".toList], .none⟩],
          ⟨0, 2, 0⟩, []⟩], []⟩] := by
    decide +kernel
  have hintact : Selector.Intact
      [⟨[.className "card".toList], .child⟩, ⟨[.element ['a']], .none⟩] :=
    Selector.intact_iff.mpr
      (by simp [Simple.Intact, Simple.KeepsArgument, Simple.members])
  have hplain : Selector.HasPlainAttributes [⟨[.className "card".toList,
      .textFunction ['f'] "b\\".toList], .none⟩] :=
    Selector.everywhere_iff.mpr
      (by simp [Simple.HasPlainAttribute, Simple.members])
  have hbroken : ¬ Selector.Intact [⟨[.className "card".toList,
      .textFunction ['f'] "b\\".toList], .none⟩] := by
    rw [Selector.intact_iff, List.forall_mem_singleton]
    intro h
    exact absurd (h (.textFunction ['f'] "b\\".toList) (by simp)).1
      (by change ¬ Enclosed.Balanced _; decide +kernel)
  exact ⟨_, _, hrules,
    ⟨hintact, ((specificities_named_text hrules (List.mem_singleton_self _)
      (List.mem_cons_self ..)).2.2.1 hintact).mpr (by decide +kernel)⟩,
    hplain, hbroken, (specificities_named_text hrules (List.mem_singleton_self _)
      (List.mem_cons_of_mem _ (List.mem_singleton_self _))).2.2.2 hplain hbroken⟩

/-- The space behind an open name hides an element, and an argument that ends
with a backslash is not read. -/
theorem specificities_named_text_ne :
    (∃ named, Declaration.rules .initial
        ⟨.raw, [".\\31\tb".toList], some "top: 0;".toList, []⟩ =
          .ok [⟨[named], "top: 0;".toList⟩] ∧
        Selector.specificities named.text = .ok [⟨0, 0, 1, 0⟩] ∧
        named.specificity = ⟨0, 0, 1, 1⟩) ∧
      ∃ named, Declaration.rules .initial
        ⟨.raw, [":f(a\\ )".toList], some "top: 0;".toList, []⟩ =
          .ok [⟨[named], "top: 0;".toList⟩] ∧
        Selector.specificities named.text ≠ .ok [named.specificity] := by
  refine ⟨⟨⟨[⟨[.className "\\31".toList], .descendant⟩, ⟨[.element ['b']], .none⟩],
      ⟨0, 1, 1⟩, "top: 0;".toList⟩, ?_, ?_, rfl⟩,
    ⟨[⟨[.textFunction ['f'] "a\\".toList], .none⟩], ⟨0, 1, 0⟩,
      "top: 0;".toList⟩, ?_, ?_⟩
  all_goals decide +kernel

end Declaration

end Cascade
