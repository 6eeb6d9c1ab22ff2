import Cascade.Proofs.Selector.Shape
import Cascade.Proofs.Text.Replace

/-!
# What can be printed

A tree is printable if every name is one name and every argument, as it is
printed, is the content of a group.  Well-formed trees are printable, and so are
the intact trees among those that have a text at all: the printed text of such a
tree opens and closes the same as the text it was read from.
-/

namespace Cascade

open Enclosed (Balanced)
open Enclosed.Nesting

mutual

inductive Simple.Printable : Simple → Prop
  | element {name : Text} : Ident.IsName name → Simple.Printable (.element name)
  | className {name : Text} : Ident.IsName name →
      Simple.Printable (.className name)
  | id {name : Text} : Ident.IsName name → Simple.Printable (.id name)
  | universal : Simple.Printable .universal
  | pseudoClass {name : Text} : Ident.IsName name →
      Text.isKeyword Simple.singleColonElements name = false →
      Simple.Printable (.pseudoClass name)
  | pseudoElement {name : Text} : Ident.IsName name →
      Simple.Printable (.pseudoElement name)
  | parent : Simple.Printable .parent
  | brackets {name value : Text} :
      Text.trim name = name → Text.trim value = value →
      ']' ∉ name → ']' ∉ value → '=' ∉ name →
      Simple.Printable (.attribute name value)
  | selectorFunction {name : Text} {members : List Selector} :
      Ident.IsName name → Text.isKeyword Simple.listFunctions name = true →
      members ≠ [] → (∀ member ∈ members, Selector.Printable member) →
      Balanced (Selector.listText members) →
      Simple.Printable (.selectorFunction name members)
  | textFunction {name argument : Text} :
      Ident.IsName name → Text.isKeyword Simple.listFunctions name = false →
      Text.trim argument = argument → Balanced argument →
      Simple.Printable (.textFunction name argument)

inductive Selector.Printable : Selector → Prop
  | intro {selector : Selector} : Selector.Linked selector →
      (∀ link ∈ selector, Compound.Joined link.compound) →
      (∀ link ∈ selector, ∀ simple ∈ link.compound, simple.Printable) →
      Selector.Printable selector

end

/-! ## Brackets -/

def Simple.bracketContent (name : Text) : Text → Text
  | [] => name
  | first :: rest => name ++ '=' :: first :: rest

theorem Simple.text_attribute (name value : Text) :
    Simple.text (.attribute name value) =
      '[' :: bracketContent name value ++ [']'] := by
  cases value <;> simp [Simple.text, bracketContent]

theorem Simple.bracketContent_of_ne_nil {name value : Text} (h : value ≠ []) :
    bracketContent name value = name ++ '=' :: value := by
  cases value with
  | nil => exact absurd rfl h
  | cons first rest => rfl

theorem Simple.mem_bracketContent {name value : Text} {c : Char}
    (h : c ∈ bracketContent name value) : c ∈ name ∨ c = '=' ∨ c ∈ value := by
  cases value with
  | nil => exact .inl h
  | cons first rest => simpa [bracketContent] using h

theorem Simple.not_mem_bracketContent {name value : Text} (hname : ']' ∉ name)
    (hvalue : ']' ∉ value) : ']' ∉ bracketContent name value := by
  intro hmem
  rcases mem_bracketContent hmem with hmem | hmem | hmem
  · exact hname hmem
  · cases hmem
  · exact hvalue hmem

/-- Printed brackets hold what they were printed from. -/
theorem Simple.ofBrackets_bracketContent {name value : Text}
    (hname : Text.trim name = name) (hvalue : Text.trim value = value)
    (hequals : '=' ∉ name) :
    ofBrackets (bracketContent name value) = .attribute name value := by
  cases value with
  | nil =>
      rw [bracketContent, ofBrackets, Text.cutAt?_eq_none_iff.mpr hequals]
      simp only [hname]
  | cons first rest =>
      have hcut : Text.cutAt? '=' (name ++ '=' :: first :: rest) =
          some (name, first :: rest) :=
        Text.cutAt?_eq_some_iff.mpr ⟨hequals, rfl⟩
      rw [bracketContent, ofBrackets, hcut]
      simp only [hname, hvalue]

/-! ## Well-formed selectors are printable -/

theorem Enclosed.Nesting.KeepsStackOutside.cons {c : Char} {text : Text}
    (hc : isPlain c = true) (htext : KeepsStackOutside text) :
    KeepsStackOutside (c :: text) :=
  (keepsStack_nil.cons hc).outside.append htext

theorem Enclosed.Nesting.keepsStackOutside_nil : KeepsStackOutside [] :=
  keepsStack_nil.outside

/-- A function changes nothing around it if its argument closes what it
opens. -/
theorem Simple.keepsStackOutside_function {name content : Text} (hname : Ident.IsName name)
    (hcontent : Balanced content) :
    KeepsStackOutside (':' :: name ++ '(' :: content ++ [')']) := by
  rw [List.append_assoc]
  exact ((keepsStack_of_isName hname).outside.cons (by decide)).append
    (Enclosed.balanced_iff_keepsStackOutside.mp hcontent).group

theorem Simple.Printable.keepsStackOutside {simple : Simple} (h : simple.Printable)
    (hplain : simple.HasPlainAttribute) : KeepsStackOutside simple.text := by
  cases h with
  | element hname => exact (keepsStack_of_isName hname).outside
  | className hname => exact (keepsStack_of_isName hname).outside.cons (by decide)
  | id hname => exact (keepsStack_of_isName hname).outside.cons (by decide)
  | universal => exact keepsStackOutside_nil.cons (by decide)
  | parent => exact keepsStackOutside_nil.cons (by decide)
  | pseudoClass hname => exact (keepsStack_of_isName hname).outside.cons (by decide)
  | pseudoElement hname =>
      exact ((keepsStack_of_isName hname).outside.cons (by decide)).cons (by decide)
  | brackets =>
      rw [Simple.text_attribute]
      apply (keepsStack_of_plain _).outside
      intro c hc
      rw [List.cons_append, List.mem_cons, List.mem_append,
        List.mem_singleton] at hc
      rcases hc with rfl | hc | rfl
      · decide
      · rcases mem_bracketContent hc with hc | rfl | hc
        · exact hplain c (List.mem_append_left _ hc)
        · decide
        · exact hplain c (List.mem_append_right _ hc)
      · decide
  | selectorFunction hname _ _ _ hmembers => exact keepsStackOutside_function hname hmembers
  | textFunction hname _ _ hargument => exact keepsStackOutside_function hname hargument

theorem Compound.keepsStackOutside_text {compound : Compound}
    (h : ∀ simple ∈ compound, KeepsStackOutside simple.text) :
    KeepsStackOutside (Compound.text compound) := by
  induction compound with
  | nil => exact keepsStackOutside_nil
  | cons simple rest ih =>
      rw [List.forall_mem_cons] at h
      exact h.1.append (ih h.2)

theorem Combinator.keepsStack_text (combinator : Combinator) :
    KeepsStack combinator.text :=
  keepsStack_of_plain (by cases combinator <;> simp [Combinator.text, isPlain_iff])

theorem Selector.keepsStackOutside_text {selector : Selector}
    (h : ∀ link ∈ selector, KeepsStackOutside (Compound.text link.compound)) :
    KeepsStackOutside (Selector.text selector) := by
  induction selector with
  | nil => exact keepsStackOutside_nil
  | cons link rest ih =>
      obtain ⟨compound, combinator⟩ := link
      rw [List.forall_mem_cons] at h
      exact (h.1.append combinator.keepsStack_text.outside).append (ih h.2)

theorem Selector.keepsStackOutside_listText {members : List Selector}
    (h : ∀ member ∈ members, KeepsStackOutside (Selector.text member)) :
    KeepsStackOutside (Selector.listText members) := by
  induction members with
  | nil => exact keepsStackOutside_nil
  | cons selector rest ih =>
      rw [List.forall_mem_cons] at h
      cases rest with
      | nil => exact h.1
      | cons next rest =>
          exact h.1.append (((ih h.2).cons (by decide)).cons (by decide))

/-- The members of a list without quotes, parentheses and backslashes in their
attributes close what they open. -/
theorem Selector.balanced_listText {members : List Selector}
    (hprintable : ∀ member ∈ members, Selector.Printable member)
    (hplain : ∀ member ∈ members, Selector.HasPlainAttributes member) :
    Balanced (Selector.listText members) := by
  rw [Enclosed.balanced_iff_keepsStackOutside]
  apply keepsStackOutside_listText
  intro member hmember
  obtain ⟨_, _, hsimples⟩ := hprintable member hmember
  obtain ⟨hattributes, _⟩ := hplain member hmember
  apply keepsStackOutside_text
  intro link hlink
  apply Compound.keepsStackOutside_text
  intro simple hsimple
  exact (hsimples link hlink simple hsimple).keepsStackOutside
    (hattributes link hlink simple hsimple)

mutual

theorem Simple.WellFormed.printable {simple : Simple} (h : simple.WellFormed) :
    simple.Printable :=
  match h with
  | .element hname => .element hname.isName
  | .className hname => .className hname.isName
  | .id hname => .id hname.isName
  | .universal => .universal
  | .pseudoClass hname hkeyword => .pseudoClass hname.isName hkeyword
  | .pseudoElement hname => .pseudoElement hname.isName
  | .parent => .parent
  | .brackets hname hvalue hclose hclose' hequals =>
      .brackets hname hvalue hclose hclose' hequals
  | .selectorFunction hname hkeyword hne hmembers hplain =>
      have hprintable := fun member hmember =>
        (hmembers member hmember).printable
      .selectorFunction hname.isName hkeyword hne hprintable
        (Selector.balanced_listText hprintable hplain)
  | .textFunction hname hkeyword htrim hargument =>
      .textFunction hname.isName hkeyword htrim hargument

theorem Selector.WellFormed.printable {selector : Selector}
    (h : selector.WellFormed) : selector.Printable :=
  match h with
  | .intro hlinked hjoined hsimples =>
      .intro hlinked hjoined fun link hlink simple hsimple =>
        (hsimples link hlink simple hsimple).printable

end

/-! ## Intact selectors are printable -/

/-- A condition whose arguments were not changed by trimming. -/
def Simple.Intact (simple : Simple) : Prop :=
  simple.KeepsArgument ∧ ∀ member ∈ simple.members, Selector.Intact member

theorem Selector.intact_iff {selector : Selector} :
    Selector.Intact selector ↔
      ∀ link ∈ selector, ∀ simple ∈ link.compound, simple.Intact :=
  Selector.everywhere_iff

theorem Simple.exists_of_ofBrackets {content name value : Text}
    (h : ofBrackets content = .attribute name value) :
    ('=' ∉ content ∧ name = Text.trim content ∧ value = []) ∨
      ∃ front back, content = front ++ '=' :: back ∧ '=' ∉ front ∧
        name = Text.trim front ∧ value = Text.trim back := by
  unfold ofBrackets at h
  split at h
  · rename_i front back hcut
    obtain ⟨hequals, rfl⟩ := Text.cutAt?_eq_some_iff.mp hcut
    cases h
    exact .inr ⟨front, back, rfl, hequals, rfl, rfl⟩
  · rename_i hcut
    cases h
    exact .inl ⟨Text.cutAt?_eq_none_iff.mp hcut, rfl, rfl⟩

theorem Simple.printable_of_ofBrackets {content name value : Text}
    (hclose : ']' ∉ content) (h : ofBrackets content = .attribute name value) :
    Simple.Printable (.attribute name value) := by
  rcases exists_of_ofBrackets h with ⟨hequals, rfl, rfl⟩ |
    ⟨front, back, rfl, hequals, rfl, rfl⟩
  · exact .brackets (Text.trim_trim content) rfl
      (mt Text.mem_of_mem_trim hclose) (by simp) (mt Text.mem_of_mem_trim hequals)
  · simp only [List.mem_append, List.mem_cons, not_or] at hclose
    exact .brackets (Text.trim_trim front) (Text.trim_trim back)
      (mt Text.mem_of_mem_trim hclose.1) (mt Text.mem_of_mem_trim hclose.2.2)
      (mt Text.mem_of_mem_trim hequals)

/-- Trimming inside of brackets is not noticed outside. -/
theorem Simple.replaces_brackets {content name value : Text}
    (h : ofBrackets content = .attribute name value) :
    Replaces (Simple.text (.attribute name value)) ('[' :: content ++ [']']) := by
  have hopen : Replaces ['['] ['['] := replaces_char (by decide)
  rcases exists_of_ofBrackets h with ⟨_, rfl, rfl⟩ |
    ⟨front, back, rfl, _, rfl, rfl⟩
  · exact hopen.append
      (replaces_trim_append (by decide) (by decide) (by decide) content)
  · rw [Simple.text_attribute]
    by_cases hback : Text.trim back = []
    · -- The equals sign is dropped together with the white space behind it.
      have hspaces : KeepsStack (back ++ [']']) :=
        (keepsStack_spaces (Text.trim_eq_nil_iff.mp hback)).append
          (keepsStack_char (by decide))
      have hname := replaces_trim_append (by decide : isPlain '=' = true)
        (by decide : isPlain ']' = true) (by decide) front
      have hwhole := hopen.append
        (hname.append (hspaces.replaces keepsStack_nil))
      rw [hback]
      simpa [bracketContent] using hwhole
    · have hname := replaces_trim_append (by decide : isPlain '=' = true)
        (by decide : isPlain '=' = true) (by decide) front
      have hvalue := replaces_trim_append (by decide : isPlain ']' = true)
        (by decide : isPlain ']' = true) (by decide) back
      rw [bracketContent_of_ne_nil hback]
      simpa using hopen.append (hname.append hvalue)

theorem Simple.replaces_function {name printed content : Text}
    (hname : Ident.IsName name) (h : Replaces printed content) :
    Replaces (':' :: name ++ '(' :: printed ++ [')'])
      (':' :: name ++ '(' :: content ++ [')']) := by
  have hhead : KeepsStack (':' :: name) :=
    (keepsStack_of_isName hname).cons (by decide)
  have hopen : Replaces ['('] ['('] := replaces_char (by decide)
  have hclose : Replaces [')'] [')'] := replaces_char (by decide)
  simpa using (hhead.replaces hhead).append (hopen.append (h.append hclose))

theorem Text.IsBlank.keepsStack {blanks : Text} (h : IsBlank blanks) :
    KeepsStack blanks :=
  keepsStack_spaces fun c hc => isSpace_of_isBlank (h c hc)

/-- Blanks may be taken away. -/
theorem Text.IsBlank.replaces {blanks printed : Text} (h : IsBlank blanks)
    (hprinted : KeepsStack printed) : Replaces printed blanks :=
  h.keepsStack.replaces hprinted

theorem Combinator.Spells.replaces {combinator : Combinator} {gap : Text}
    (h : combinator.Spells gap) : Replaces combinator.text gap := by
  refine KeepsStack.replaces ?_ combinator.keepsStack_text
  cases h with
  | descendant _ hblanks => exact hblanks.keepsStack
  | @marked _ mark front back hmark hfront hback =>
      have hmark : KeepsStack [mark] :=
        keepsStack_char (by cases combinator <;> cases hmark <;> decide)
      exact hfront.keepsStack.append (hmark.append hback.keepsStack)

theorem Combinator.Spells.ne_none {combinator : Combinator} {gap : Text}
    (h : combinator.Spells gap) : combinator ≠ .none := by
  rintro rfl
  cases h with
  | marked hmark => cases hmark

/-- A named element does not stand where a name ends. -/
theorem Compound.Spells.not_isNamedElement {simple next : Simple}
    {compound : Compound} {text : Text}
    (h : Compound.Spells (next :: compound) text)
    (hends : simple.EndsBefore text) (hname : simple.lastName?.isSome = true) :
    next.isNamedElement = false := by
  obtain ⟨name, hlast⟩ := Option.isSome_iff_exists.mp hname
  obtain ⟨hstops, _⟩ := hends name hlast
  cases next with
  | element other =>
      cases h with
      | cons hsimple _ _ =>
          cases hsimple with
          | element hother =>
              obtain ⟨c, rest, rfl, hc⟩ := hother.exists_cons
              rw [List.cons_append, Ident.stops_cons] at hstops
              rcases hc with rfl | hc
              · exact absurd rfl hstops.1
              · rw [hstops.2] at hc
                cases hc
  | _ => rfl

theorem Compound.Spells.joined {compound : Compound} {text : Text}
    (h : Compound.Spells compound text) (hne : compound ≠ []) :
    Compound.Joined compound := by
  induction compound generalizing text with
  | nil => exact absurd rfl hne
  | cons simple rest ih =>
      cases rest with
      | nil => trivial
      | cons next rest =>
          cases h with
          | cons _ hends hrest =>
              exact ⟨hrest.not_isNamedElement hends, ih hrest (by simp)⟩

theorem Selector.Spells.linked {selector : Selector} {text : Text}
    (h : Selector.Spells selector text) : Selector.Linked selector := by
  induction selector generalizing text with
  | nil => cases h
  | cons link rest ih =>
      cases rest with
      | nil =>
          cases h with
          | last => rfl
          | cons _ _ _ _ hrest => exact absurd rfl hrest.ne_nil
      | cons next rest =>
          cases h with
          | cons _ _ hgap _ hrest => exact ⟨hgap.ne_none, ih hrest⟩

mutual

/-- What prints an intact condition can be printed, and opens and closes the
same as the text that was read. -/
theorem Simple.Spells.printable {simple : Simple} {text : Text}
    (h : simple.Spells text) (hintact : simple.Intact) :
    simple.Printable ∧ Replaces simple.text text := by
  cases h with
  | element hname =>
      have hkeeps := keepsStack_of_isName hname
      exact ⟨.element hname, hkeeps.replaces hkeeps⟩
  | className hname =>
      have hkeeps := (keepsStack_of_isName hname).cons (c := '.') (by decide)
      exact ⟨.className hname, hkeeps.replaces hkeeps⟩
  | id hname =>
      have hkeeps := (keepsStack_of_isName hname).cons (c := '#') (by decide)
      exact ⟨.id hname, hkeeps.replaces hkeeps⟩
  | universal =>
      have hkeeps := keepsStack_nil.cons (c := '*') (by decide)
      exact ⟨.universal, hkeeps.replaces hkeeps⟩
  | pseudoClass hname hkeyword =>
      have hkeeps := (keepsStack_of_isName hname).cons (c := ':') (by decide)
      exact ⟨.pseudoClass hname hkeyword, hkeeps.replaces hkeeps⟩
  | pseudoElement hname =>
      have hkeeps := ((keepsStack_of_isName hname).cons (c := ':') (by decide)).cons
        (c := ':') (by decide)
      exact ⟨.pseudoElement hname, hkeeps.replaces hkeeps⟩
  | singleColon hname _ =>
      have hread := (keepsStack_of_isName hname).cons (c := ':') (by decide)
      have hprinted := hread.cons (c := ':') (by decide)
      exact ⟨.pseudoElement hname, hread.replaces hprinted⟩
  | parent =>
      have hkeeps := keepsStack_nil.cons (c := '&') (by decide)
      exact ⟨.parent, hkeeps.replaces hkeeps⟩
  | brackets hclose hcontent =>
      exact ⟨Simple.printable_of_ofBrackets hclose hcontent,
        Simple.replaces_brackets hcontent⟩
  | selectorFunction hname hkeyword hcontent hmembers =>
      obtain ⟨hprintable, hreplaces⟩ := hmembers.printable hintact.2
      exact ⟨.selectorFunction hname hkeyword hmembers.ne_nil hprintable
        (hreplaces.balanced hcontent), Simple.replaces_function hname hreplaces⟩
  | textFunction hname hkeyword _ hargument =>
      subst hargument
      exact ⟨.textFunction hname hkeyword (Text.trim_trim _) hintact.1,
        Simple.replaces_function hname (replaces_trim hintact.1)⟩

theorem Compound.Spells.printable {compound : Compound} {text : Text}
    (h : Compound.Spells compound text)
    (hintact : ∀ simple ∈ compound, simple.Intact) :
    (∀ simple ∈ compound, simple.Printable) ∧
      Replaces (Compound.text compound) text := by
  cases h with
  | nil => exact ⟨by simp, keepsStack_nil.replaces keepsStack_nil⟩
  | cons hsimple _ hrest =>
      rw [List.forall_mem_cons] at hintact
      obtain ⟨hprintable, hreplaces⟩ := hsimple.printable hintact.1
      obtain ⟨hprintables, hreplaces'⟩ := hrest.printable hintact.2
      exact ⟨List.forall_mem_cons.mpr ⟨hprintable, hprintables⟩,
        hreplaces.append hreplaces'⟩

theorem Selector.Spells.printable {selector : Selector} {text : Text}
    (h : Selector.Spells selector text) (hintact : Selector.Intact selector) :
    selector.Printable ∧ Replaces (Selector.text selector) text := by
  have hlinked := h.linked
  rw [Selector.intact_iff] at hintact
  cases h with
  | last hne hcompound =>
      rw [List.forall_mem_singleton] at hintact
      obtain ⟨hprintable, hreplaces⟩ := hcompound.printable hintact
      refine ⟨.intro hlinked ?_ ?_, ?_⟩
      · exact List.forall_mem_singleton.mpr (hcompound.joined hne)
      · exact List.forall_mem_singleton.mpr hprintable
      · simpa [Selector.text, Combinator.text] using hreplaces
  | cons hne hcompound hgap _ hrest =>
      rw [List.forall_mem_cons, ← Selector.intact_iff] at hintact
      obtain ⟨hprintable, hreplaces⟩ := hcompound.printable hintact.1
      obtain ⟨⟨_, hjoined, hprintables⟩, hreplaces'⟩ :=
        hrest.printable hintact.2
      refine ⟨.intro hlinked ?_ ?_, ?_⟩
      · exact List.forall_mem_cons.mpr ⟨hcompound.joined hne, hjoined⟩
      · exact List.forall_mem_cons.mpr ⟨hprintable, hprintables⟩
      · rw [Selector.text, List.append_assoc]
        exact hreplaces.append (hgap.replaces.append hreplaces')

theorem Selector.SpellsList.printable {members : List Selector} {text : Text}
    (h : Selector.SpellsList members text)
    (hintact : ∀ member ∈ members, Selector.Intact member) :
    (∀ member ∈ members, Selector.Printable member) ∧
      Replaces (Selector.listText members) text := by
  cases h with
  | last hfront hselector _ hback =>
      rw [List.forall_mem_singleton] at hintact
      obtain ⟨hprintable, hreplaces⟩ := hselector.printable hintact
      refine ⟨List.forall_mem_singleton.mpr hprintable, ?_⟩
      have hwhole := (hfront.replaces keepsStack_nil).append
        (hreplaces.append (hback.replaces keepsStack_nil))
      simpa [Selector.listText] using hwhole
  | @cons selector rest front text back tail hfront hselector _ hback hrest =>
      rw [List.forall_mem_cons] at hintact
      obtain ⟨hprintable, hreplaces⟩ := hselector.printable hintact.1
      obtain ⟨hprintables, hreplaces'⟩ := hrest.printable hintact.2
      refine ⟨List.forall_mem_cons.mpr ⟨hprintable, hprintables⟩, ?_⟩
      obtain ⟨next, rest, rfl⟩ := List.exists_cons_of_ne_nil hrest.ne_nil
      have hcomma : Replaces [','] [','] := replaces_char (by decide)
      have hspace : KeepsStack [' '] := keepsStack_char (by decide)
      have hwhole := (hfront.replaces keepsStack_nil).append
        (hreplaces.append ((hback.replaces keepsStack_nil).append
          (hcomma.append ((keepsStack_nil.replaces hspace).append hreplaces'))))
      simpa [Selector.listText] using hwhole

end

end Cascade
