import Cascade.Proofs.Selector.AsRead

/-!
# Trees that spell their own text

If the printed text of a tree is one of its texts, no spelling choice was
exercised in it: a gap is printed with one space on either side, brackets and
arguments without white space at their edges.  Then the arguments are those of
an intact tree, and the space in front of each combinator closes no name.  So a
tree that spells its own text is settled.
-/

namespace Cascade

/-! ## Edges -/

def Text.SameEdges (first second : Text) : Prop :=
  first.head? = second.head? ∧ first.getLast? = second.getLast?

theorem Text.SameEdges.append {first second first' second' : Text}
    (h : SameEdges first second) (h' : SameEdges first' second') :
    SameEdges (first ++ first') (second ++ second') := by
  unfold SameEdges
  simp only [List.head?_append, List.getLast?_append]
  exact ⟨by rw [h.1, h'.1], by rw [h.2, h'.2]⟩

/-- What stands between two pieces does not count. -/
theorem Text.SameEdges.append_between {first second first' second' : Text}
    (h : SameEdges first second) (h' : SameEdges first' second')
    (hne : first ≠ []) (hne' : first' ≠ []) (between between' : Text) :
    SameEdges (first ++ (between ++ first')) (second ++ (between' ++ second')) := by
  have hhead := List.head?_eq_some_head hne
  have hlast := List.getLast?_eq_some_getLast hne'
  unfold SameEdges
  simp only [List.head?_append, List.getLast?_append, ← h.1, ← h'.2, hhead, hlast,
    Option.some_or, and_self]

theorem Simple.Spells.sameEdges {simple : Simple} {text : Text}
    (h : simple.Spells text) : Text.SameEdges text simple.text := by
  have hlast (first second : Text) (c : Char) :
      (first ++ [c]).getLast? = (second ++ [c]).getLast? := by simp
  cases h with
  | singleColon hname _ =>
      obtain ⟨c, rest, rfl, _⟩ := hname.exists_cons
      exact ⟨rfl, by simp [Simple.text]⟩
  | brackets =>
      rw [Simple.text_attribute]
      exact ⟨rfl, hlast _ _ _⟩
  | selectorFunction => exact ⟨rfl, hlast _ _ _⟩
  | textFunction => exact ⟨rfl, hlast _ _ _⟩
  | _ => exact ⟨rfl, rfl⟩

theorem Compound.Spells.sameEdges {compound : Compound} {text : Text}
    (h : Compound.Spells compound text) :
    Text.SameEdges text (Compound.text compound) := by
  induction compound generalizing text with
  | nil =>
      cases h
      exact ⟨rfl, rfl⟩
  | cons simple rest ih =>
      cases h with
      | cons hsimple _ hrest => exact hsimple.sameEdges.append (ih hrest)

theorem Selector.Spells.ne_nil_text {selector : Selector} {text : Text}
    (h : Selector.Spells selector text) : text ≠ [] := by
  obtain ⟨_, _, rfl, _⟩ := h.exists_cons
  simp

theorem Selector.Spells.sameEdges {selector : Selector} {text : Text}
    (h : Selector.Spells selector text) :
    Text.SameEdges text (Selector.text selector) := by
  induction selector generalizing text with
  | nil => cases h
  | cons link rest ih =>
      cases h with
      | last _ hcompound =>
          simpa [Selector.text, Combinator.text] using hcompound.sameEdges
      | cons hne hcompound _ _ hrest =>
          obtain ⟨_, _, rfl, _⟩ := hcompound.exists_cons hne
          rw [Selector.text, List.append_assoc]
          exact hcompound.sameEdges.append_between (ih hrest) (by simp)
            hrest.ne_nil_text _ _

/-- What was read from a trimmed text prints as a trimmed text. -/
theorem Selector.Spells.isTrimmed {selector : Selector} {text : Text}
    (h : Selector.Spells selector text) (htext : Text.IsTrimmed text) :
    Text.IsTrimmed (Selector.text selector) := by
  rw [Text.IsTrimmed, h.sameEdges.1, h.sameEdges.2] at htext
  exact htext

/-! ## Settled pieces -/

/-- A condition whose arguments print as what they were read from. -/
def Simple.Settled (simple : Simple) : Prop :=
  simple.KeepsArgument ∧ ∀ member ∈ simple.members, Selector.Settled member

theorem Selector.settled_iff {selector : Selector} :
    Selector.Settled selector ↔
      ∀ link ∈ selector,
        (link.combinator ≠ .none → Compound.IsSealed link.compound) ∧
          ∀ simple ∈ link.compound, simple.Settled := by
  constructor
  · rintro ⟨⟨hkeeps, hintact⟩, ⟨hsealed, hmembers⟩⟩ link hlink
    refine ⟨hsealed link hlink, fun simple hsimple =>
      ⟨hkeeps link hlink simple hsimple, fun member hmember => ?_⟩⟩
    exact ⟨hintact link hlink simple hsimple member hmember,
      hmembers link hlink simple hsimple member hmember⟩
  · intro h
    constructor
    · exact .intro
        (fun link hlink simple hsimple => ((h link hlink).2 simple hsimple).1)
        fun link hlink simple hsimple member hmember =>
          (((h link hlink).2 simple hsimple).2 member hmember).1
    · exact .intro (fun link hlink => (h link hlink).1)
        fun link hlink simple hsimple member hmember =>
          (((h link hlink).2 simple hsimple).2 member hmember).2

theorem Simple.settled_of_members {simple : Simple} (hkeeps : simple.KeepsArgument)
    (hmembers : simple.members = []) : simple.Settled := by
  refine ⟨hkeeps, ?_⟩
  rw [hmembers]
  simp

/-! ## Texts that begin alike -/

theorem Text.eq_of_not_mem_append {mark : Char} {first second rest tail : Text}
    (hfirst : mark ∉ first) (hsecond : mark ∉ second)
    (h : first ++ mark :: rest = second ++ mark :: tail) :
    first = second ∧ rest = tail := by
  have hcut : cutAt? mark (first ++ mark :: rest) = some (first, rest) :=
    cutAt?_eq_some_iff.mpr ⟨hfirst, rfl⟩
  rw [h, cutAt?_eq_some_iff.mpr ⟨hsecond, rfl⟩] at hcut
  cases hcut
  exact ⟨rfl, rfl⟩

/-- The gap in front of a selector is the printed one if the texts from there on
are the same. -/
theorem Combinator.Spells.eq_text {combinator : Combinator} {gap : Text}
    (h : combinator.Spells gap) {c d : Char} {rest tail : Text}
    (hc : Text.isBlank c = false) (hd : Text.isBlank d = false)
    (heq : gap ++ c :: rest = combinator.text ++ d :: tail) :
    gap = combinator.text := by
  have hspace := Text.isBlank_space
  cases h with
  | descendant _ hblanks => exact (hblanks.append_inj hspace hc hd heq).1
  | @marked _ mark front back hmark hfront hback =>
      have hmarkBlank : Text.isBlank mark = false := by
        cases combinator <;> cases hmark <;> decide
      have htext : combinator.text = [' '] ++ mark :: [' '] := by
        cases combinator <;> cases hmark <;> rfl
      rw [htext, List.append_assoc, List.append_assoc] at heq
      obtain ⟨rfl, hbehind⟩ :=
        hfront.append_inj hspace hmarkBlank hmarkBlank heq
      obtain ⟨rfl, _⟩ :=
        hback.append_inj hspace hc hd (List.cons.inj hbehind).2
      exact htext.symm

theorem Selector.Spells.text_start {selector : Selector} {text : Text}
    (h : Selector.Spells selector text) :
    ∃ c rest tail, text = c :: rest ∧ Selector.text selector = c :: tail ∧
      Text.isBlank c = false := by
  obtain ⟨c, rest, rfl, hc⟩ := h.exists_cons
  obtain ⟨tail, htail⟩ := List.head?_eq_some_iff.mp h.sameEdges.1.symm
  exact ⟨c, rest, tail, rfl, htail, (Simple.isStart_spec hc).1⟩

/-- Blanks in front of a selector can be told off from it. -/
theorem Selector.Spells.append_inj {selector : Selector}
    {front front' text rest more : Text} (h : Selector.Spells selector text)
    (hfront : Text.IsBlank front) (hfront' : Text.IsBlank front')
    (heq : front ++ (text ++ rest) = front' ++ (Selector.text selector ++ more)) :
    front = front' ∧ text ++ rest = Selector.text selector ++ more := by
  obtain ⟨c, start, start', hstart, hstart', hc⟩ := h.text_start
  rw [hstart, hstart', List.cons_append, List.cons_append] at heq ⊢
  exact hfront.append_inj hfront' hc hc heq

theorem Simple.eq_of_function {name content printed rest more : Text}
    (h : ':' :: name ++ '(' :: content ++ [')'] ++ rest =
      ':' :: name ++ '(' :: printed ++ [')'] ++ more) :
    content ++ ')' :: rest = printed ++ ')' :: more := by
  simpa using h

mutual

/-- Where a text and the printed text of the same condition begin alike, they
are the same text, and the condition is settled. -/
theorem Simple.Spells.settled {simple : Simple} {text rest more : Text}
    (h : simple.Spells text) (heq : text ++ rest = simple.text ++ more) :
    text = simple.text ∧ simple.Settled := by
  cases h with
  | element => exact ⟨rfl, Simple.settled_of_members trivial rfl⟩
  | className => exact ⟨rfl, Simple.settled_of_members trivial rfl⟩
  | id => exact ⟨rfl, Simple.settled_of_members trivial rfl⟩
  | universal => exact ⟨rfl, Simple.settled_of_members trivial rfl⟩
  | pseudoClass => exact ⟨rfl, Simple.settled_of_members trivial rfl⟩
  | pseudoElement => exact ⟨rfl, Simple.settled_of_members trivial rfl⟩
  | parent => exact ⟨rfl, Simple.settled_of_members trivial rfl⟩
  | singleColon hname _ =>
      -- The printed text has a second colon, with which no name begins.
      obtain ⟨c, tail, rfl, hc⟩ := hname.exists_cons
      obtain ⟨rfl, _⟩ := List.cons.inj (List.cons.inj heq).2
      exact absurd hc (by decide)
  | brackets hclose hcontent =>
      cases Simple.printable_of_ofBrackets hclose hcontent with
      | brackets _ _ hname hvalue _ =>
          rw [Simple.text_attribute] at heq ⊢
          obtain ⟨rfl, _⟩ := Text.eq_of_not_mem_append hclose
            (Simple.not_mem_bracketContent hname hvalue)
            (by simpa using heq)
          exact ⟨rfl, Simple.settled_of_members trivial rfl⟩
  | selectorFunction hname hkeyword hcontent hmembers =>
      obtain ⟨rfl, hsettled⟩ := hmembers.settled Text.isBlank_nil
        (Simple.eq_of_function heq)
      exact ⟨rfl, trivial, hsettled⟩
  | textFunction hname hkeyword hcontent hargument =>
      subst hargument
      have hsame := Text.eq_trim_of_append (by decide) (Simple.eq_of_function heq)
      rw [← hsame]
      exact ⟨rfl, Simple.settled_of_members hcontent rfl⟩

theorem Compound.Spells.settled {compound : Compound} {text rest more : Text}
    (h : Compound.Spells compound text)
    (heq : text ++ rest = Compound.text compound ++ more) :
    text = Compound.text compound ∧ ∀ simple ∈ compound, simple.Settled := by
  cases h with
  | nil => exact ⟨rfl, by simp⟩
  | cons hsimple _ hrest =>
      rw [Compound.text, List.append_assoc, List.append_assoc] at heq
      obtain ⟨rfl, hsettled⟩ := hsimple.settled heq
      obtain ⟨rfl, hrests⟩ := hrest.settled (List.append_cancel_left heq)
      exact ⟨rfl, List.forall_mem_cons.mpr ⟨hsettled, hrests⟩⟩

theorem Selector.Spells.settled {selector : Selector} {text rest more : Text}
    (h : Selector.Spells selector text)
    (heq : text ++ rest = Selector.text selector ++ more) :
    text = Selector.text selector ∧ Selector.Settled selector := by
  rw [Selector.settled_iff]
  cases h with
  | last hne hcompound =>
      rw [Selector.text, List.append_assoc, List.append_assoc] at heq
      obtain ⟨rfl, hsettled⟩ := hcompound.settled heq
      refine ⟨by simp [Selector.text, Combinator.text], ?_⟩
      exact List.forall_mem_singleton.mpr ⟨absurd rfl, hsettled⟩
  | @cons compound combinator links text gap tail hne hcompound hgap hends
      hrest =>
      rw [Selector.text, List.append_assoc, List.append_assoc, List.append_assoc,
        List.append_assoc] at heq
      obtain ⟨rfl, hsettled⟩ := hcompound.settled heq
      replace heq := List.append_cancel_left heq
      obtain ⟨c, start, start', hstart, hstart', hc⟩ := hrest.text_start
      obtain rfl : gap = combinator.text := by
        rw [hstart, hstart'] at heq
        exact hgap.eq_text hc hc heq
      obtain ⟨rfl, hrests⟩ := hrest.settled (List.append_cancel_left heq)
      rw [Selector.settled_iff] at hrests
      refine ⟨by rw [Selector.text, List.append_assoc], ?_⟩
      refine List.forall_mem_cons.mpr ⟨⟨fun hcombinator => ?_, hsettled⟩, hrests⟩
      intro simple hsimple name hname
      apply (hends simple hsimple name hname).2
      rcases Combinator.text_cases hcombinator with ⟨_, htext⟩ | ⟨_, _, _, htext⟩
      all_goals
        rw [htext]
        rfl

theorem Selector.SpellsList.settled {members : List Selector}
    {front text rest more : Text} (h : Selector.SpellsList members text)
    (hfront : Text.IsBlank front)
    (heq : text ++ ')' :: rest =
      front ++ (Selector.listText members ++ ')' :: more)) :
    text = front ++ Selector.listText members ∧
      ∀ member ∈ members, Selector.Settled member := by
  cases h with
  | @last selector front' text back hfront' hselector _ hback =>
      have hsame : front' ++ (text ++ (back ++ ')' :: rest)) =
          front ++ (Selector.text selector ++ ')' :: more) := by
        simpa [Selector.listText] using heq
      obtain ⟨rfl, hbehind⟩ := hselector.append_inj hfront' hfront hsame
      obtain ⟨rfl, hsettled⟩ := hselector.settled hbehind
      obtain ⟨rfl, _⟩ := hback.append_inj Text.isBlank_nil (by decide)
        (by decide) (List.append_cancel_left hbehind)
      exact ⟨by simp [Selector.listText], List.forall_mem_singleton.mpr hsettled⟩
  | @cons selector members front' text back tail hfront' hselector _ hback
      hrest =>
      obtain ⟨next, others, rfl⟩ := List.exists_cons_of_ne_nil hrest.ne_nil
      rw [Selector.listText] at heq ⊢
      · have hsame : front' ++ (text ++ (back ++ ',' :: (tail ++ ')' :: rest))) =
            front ++ (Selector.text selector ++
              (',' :: ' ' :: Selector.listText (next :: others) ++ ')' :: more)) := by
          simpa using heq
        obtain ⟨rfl, hbehind⟩ := hselector.append_inj hfront' hfront hsame
        obtain ⟨rfl, hsettled⟩ := hselector.settled hbehind
        obtain ⟨rfl, hcomma⟩ := hback.append_inj Text.isBlank_nil
          (by decide) (by decide) (List.append_cancel_left hbehind)
        obtain ⟨rfl, hothers⟩ := hrest.settled Text.isBlank_space
          (List.cons.inj hcomma).2
        exact ⟨by simp, List.forall_mem_cons.mpr ⟨hsettled, hothers⟩⟩

end

end Cascade
