import Cascade.Proofs.Selector.Spelling
import Cascade.Selector.Argument

/-!
# What is read is spelled

Whatever a reader takes is a text of what it gives back, and it takes as much as
it can: no name at the end could have been longer.  Each reader is followed by
its own recursion.  What it asks of the reader of arguments is an assumption
here, which the argument reader meets for shorter texts.
-/

namespace Cascade

def ArgumentReader.Sound (argument : ArgumentReader) : Prop :=
  ∀ content members, argument content = .ok members →
    Selector.SpellsList members content

/-- A name in front of `rest` was read to its end. -/
def Simple.StopsAt (simple : Simple) (rest : Text) : Prop :=
  ∀ name ∈ simple.lastName?, Ident.unit? rest = none ∧
    (rest.head? = some ' ' → Ident.IsClosed name)

def Compound.StopsAt (compound : Compound) (rest : Text) : Prop :=
  ∀ simple ∈ compound.getLast?, simple.StopsAt rest

def Selector.StopsAt (selector : Selector) (rest : Text) : Prop :=
  ∀ link ∈ selector.getLast?, Compound.StopsAt link.compound rest

/-! ## Simple selectors -/

theorem Simple.exists_of_readNamed {start input rest : Text}
    {make : Text → Simple} {simple : Simple}
    (h : readNamed start make input = .ok (simple, rest)) :
    ∃ name, input = name ++ rest ∧ simple = make name ∧ Ident.IsName name ∧
      Ident.unit? rest = none ∧ (rest.head? = some ' ' → Ident.IsClosed name) := by
  unfold readNamed at h
  split at h
  · rename_i name after hname
    cases h
    have happend := Ident.append_of_read? hname
    rw [← happend] at hname
    exact ⟨name, happend.symm, rfl, Ident.read?_append_iff.mp hname⟩
  · cases h

theorem Simple.exists_of_readFunction {argument : ArgumentReader}
    (hargument : argument.Sound) {name input rest : Text} {simple : Simple}
    (hname : Ident.IsName name)
    (h : readFunction argument name input = .ok (simple, rest)) :
    ∃ content, input = content ++ ')' :: rest ∧
      simple.Spells (':' :: name ++ '(' :: content ++ [')']) ∧
      simple.lastName? = none := by
  unfold readFunction at h
  split at h
  · rename_i content after hcontent
    have happend := Enclosed.append_of_groupContent input
    rw [hcontent] at happend
    have hbalanced := Enclosed.balanced_of_groupContent hcontent
    split at h
    · rename_i hkeyword
      obtain ⟨members, hmembers, hvalue⟩ := exists_of_map_eq_ok h
      cases hvalue
      exact ⟨content, happend.symm, .selectorFunction hname hkeyword hbalanced
        (hargument content members hmembers), rfl⟩
    · rename_i hkeyword
      cases h
      exact ⟨content, happend.symm, .textFunction hname (by simpa using hkeyword)
        hbalanced rfl, rfl⟩
  · cases h

theorem Simple.exists_ofBrackets (content : Text) :
    ∃ name value, ofBrackets content = .attribute name value := by
  unfold ofBrackets
  split <;> exact ⟨_, _, rfl⟩

/-- What is read as a simple selector is one of its texts. -/
theorem Simple.exists_of_readWith {argument : ArgumentReader}
    (hargument : argument.Sound) {input rest : Text} {simple : Simple}
    (h : readWith argument input = .ok (simple, rest)) :
    ∃ text, input = text ++ rest ∧ simple.Spells text ∧ simple.StopsAt rest := by
  unfold readWith at h
  split at h
  · obtain ⟨name, rfl, rfl, hname, hends⟩ := exists_of_readNamed h
    exact ⟨'#' :: name, rfl, .id hname, by rintro _ ⟨⟩; exact hends⟩
  · obtain ⟨name, rfl, rfl, hname, hends⟩ := exists_of_readNamed h
    exact ⟨'.' :: name, rfl, .className hname, by rintro _ ⟨⟩; exact hends⟩
  · obtain ⟨name, rfl, rfl, hname, hends⟩ := exists_of_readNamed h
    exact ⟨':' :: ':' :: name, rfl, .pseudoElement hname,
      by rintro _ ⟨⟩; exact hends⟩
  · split at h
    · rename_i name inside hread
      have happend := Ident.append_of_read? hread
      rw [← happend] at hread
      have hname := (Ident.read?_append_iff.mp hread).1
      obtain ⟨content, rfl, hspells, hlast⟩ :=
        exists_of_readFunction hargument hname h
      refine ⟨_, ?_, hspells, by simp [StopsAt, hlast]⟩
      rw [← happend]
      simp
    · rename_i name after _ hread
      have happend := Ident.append_of_read? hread
      rw [← happend] at hread
      obtain ⟨hname, hends⟩ := Ident.read?_append_iff.mp hread
      cases h
      refine ⟨':' :: name, by rw [← happend]; rfl, ?_⟩
      unfold ofSingleColon
      split
      · rename_i hkeyword
        exact ⟨.singleColon hname hkeyword, by rintro _ ⟨⟩; exact hends⟩
      · rename_i hkeyword
        exact ⟨.pseudoClass hname (by simpa using hkeyword),
          by rintro _ ⟨⟩; exact hends⟩
    · cases h
  · cases h
    exact ⟨['&'], rfl, .parent, by rintro _ ⟨⟩⟩
  · cases h
    exact ⟨['*'], rfl, .universal, by rintro _ ⟨⟩⟩
  · split at h
    · rename_i content after hcut
      cases h
      obtain ⟨hclose, rfl⟩ := Text.cutAt?_eq_some_iff.mp hcut
      obtain ⟨name, value, hvalue⟩ := exists_ofBrackets content
      rw [hvalue]
      exact ⟨'[' :: content ++ [']'], by simp, .brackets hclose hvalue,
        by rintro _ ⟨⟩⟩
    · cases h
  · obtain ⟨name, rfl, rfl, hname, hends⟩ := exists_of_readNamed h
    exact ⟨name, rfl, .element hname, by rintro _ ⟨⟩; exact hends⟩

/-! ## Compounds -/

/-- Where a further simple selector is read, the one in front of it has ended,
unless the text would have gone on with its name. -/
theorem Simple.stops_of_readWith {argument : ArgumentReader} {input rest : Text}
    {simple : Simple} (h : readWith argument input = .ok (simple, rest))
    (hunit : Ident.unit? input = none) : Ident.Stops input := by
  unfold readWith at h
  split at h
  case h_8 =>
    rw [readNamed, Ident.read?_eq_none_of_unit? hunit] at h
    cases h
  all_goals exact Ident.stops_cons.mpr (by decide)

/-- The simple selector in front of another one that was read. -/
theorem Simple.StopsAt.endsBefore {argument : ArgumentReader}
    {simple next : Simple} {text behind rest : Text}
    (h : simple.StopsAt (text ++ behind)) (htext : text ≠ [])
    (hnext : readWith argument (text ++ behind) = .ok (next, rest)) :
    simple.EndsBefore text := by
  intro name hname
  obtain ⟨hunit, hclosed⟩ := h name hname
  have hstops := stops_of_readWith hnext hunit
  obtain ⟨c, text, rfl⟩ := List.exists_cons_of_ne_nil htext
  exact ⟨hstops, hclosed⟩

theorem Compound.exists_of_readTailWith_cons {argument : ArgumentReader}
    {input rest : Text} {simple : Simple} {compound : Compound}
    (h : readTailWith argument input = .ok (simple :: compound, rest)) :
    ∃ after, Simple.readWith argument input = .ok (simple, after) := by
  cases hsimple : Simple.readWith argument input with
  | ok found =>
      rw [readTailWith_of_ok hsimple] at h
      obtain ⟨_, _, hvalue⟩ := exists_of_map_eq_ok h
      cases hvalue
      exact ⟨found.2, rfl⟩
  | error fault =>
      rw [readTailWith_of_error hsimple] at h
      cases hseverity : fault.severity <;> rw [hseverity] at h <;> cases h

theorem Compound.exists_of_readTailWith {argument : ArgumentReader}
    (hargument : argument.Sound) {input rest : Text} {compound : Compound}
    (h : readTailWith argument input = .ok (compound, rest)) :
    ∃ text, input = text ++ rest ∧ Compound.Spells compound text ∧
      Compound.StopsAt compound rest := by
  fun_induction readTailWith argument input generalizing compound with
  | case1 input simple after hsimple ih =>
      obtain ⟨⟨tail, last⟩, htail, hvalue⟩ := exists_of_map_eq_ok h
      cases hvalue
      obtain ⟨text, rfl, hspells, hstops⟩ :=
        Simple.exists_of_readWith hargument hsimple
      obtain ⟨text', rfl, htailspells, htailstops⟩ := ih htail
      cases tail with
      | nil =>
          cases htailspells
          refine ⟨text ++ [], by simp, .cons hspells simple.endsBefore_nil .nil, ?_⟩
          rintro _ ⟨⟩
          exact hstops
      | cons next tail =>
          obtain ⟨_, hnext⟩ := exists_of_readTailWith_cons htail
          have htext : text' ≠ [] := by
            obtain ⟨_, _, rfl, _⟩ := htailspells.exists_cons (by simp)
            simp
          refine ⟨text ++ text', by simp, .cons hspells
            (hstops.endsBefore htext hnext) htailspells, ?_⟩
          simpa [StopsAt] using htailstops
  | case2 input fault hfault hsimple =>
      cases h
      exact ⟨[], rfl, .nil, by rintro _ ⟨⟩⟩
  | case3 => cases h

theorem Compound.exists_of_readWith {argument : ArgumentReader}
    (hargument : argument.Sound) {input rest : Text} {compound : Compound}
    (h : readWith argument input = .ok (compound, rest)) :
    compound ≠ [] ∧ ∃ text, input = text ++ rest ∧
      Compound.Spells compound text ∧ Compound.StopsAt compound rest := by
  unfold readWith at h
  split at h
  · rename_i simple after hsimple
    rw [← readTailWith_of_ok hsimple] at h
    refine ⟨?_, exists_of_readTailWith hargument h⟩
    rintro rfl
    rw [readTailWith_of_ok hsimple] at h
    obtain ⟨_, _, hvalue⟩ := exists_of_map_eq_ok h
    cases hvalue
  · cases h

/-! ## Selectors -/

theorem Selector.exists_of_combinator? {input rest : Text}
    {combinator : Combinator} (h : combinator? input = some (combinator, rest)) :
    ∃ gap, input = gap ++ rest ∧ combinator.Spells gap := by
  obtain ⟨front, hfront, hinput, _⟩ := Text.exists_skipBlanks input
  unfold combinator? at h
  split at h
  case h_4 =>
    split at h
    · rename_i hlt
      cases h
      refine ⟨front, hinput, .descendant ?_ hfront⟩
      rintro rfl
      rw [List.nil_append] at hinput
      rw [← hinput] at hlt
      exact Nat.lt_irrefl _ hlt
    · cases h
  all_goals
    rename_i behind hmark
    obtain ⟨back, hback, hbehind, _⟩ := Text.exists_skipBlanks behind
    cases h
    rw [hmark, hbehind] at hinput
    exact ⟨_, by rw [hinput, List.append_assoc]; rfl, .marked rfl hfront hback⟩

/-- A gap is blank or starts with a mark, so only a space could belong to the
name in front of it. -/
theorem Compound.StopsAt.endsBefore {compound : Compound} {gap rest : Text}
    {combinator : Combinator} (h : StopsAt compound (gap ++ rest))
    (hgap : combinator.Spells gap) : EndsBefore compound gap := by
  intro simple hsimple name hname
  obtain ⟨_, hclosed⟩ := h simple hsimple name hname
  have hstops := (hgap.delimits []).stops
  obtain ⟨c, gap, rfl, _⟩ := hgap.exists_cons
  exact ⟨hstops, hclosed⟩

theorem Selector.exists_of_readLinksWith {argument : ArgumentReader}
    (hargument : argument.Sound) {compound : Compound} {text input : Text}
    (hne : compound ≠ []) (hspells : Compound.Spells compound text)
    (hstops : Compound.StopsAt compound input) :
    ∃ more, input = more ++ (readLinksWith argument compound input).2 ∧
      Selector.Spells (readLinksWith argument compound input).1 (text ++ more) ∧
      Selector.StopsAt (readLinksWith argument compound input).1
        (readLinksWith argument compound input).2 := by
  fun_induction readLinksWith argument compound input generalizing text with
  | case1 compound input hnone =>
      refine ⟨[], rfl, by simpa using .last hne hspells, ?_⟩
      rintro _ ⟨⟩
      exact hstops
  | case2 compound input combinator behind hcombinator fault hnext =>
      refine ⟨[], rfl, by simpa using .last hne hspells, ?_⟩
      rintro _ ⟨⟩
      exact hstops
  | case3 compound input combinator behind hcombinator next rest hnext found =>
      rename_i ih
      obtain ⟨gap, rfl, hgap⟩ := exists_of_combinator? hcombinator
      obtain ⟨hnextne, text', rfl, hnextspells, hnextstops⟩ :=
        Compound.exists_of_readWith hargument hnext
      obtain ⟨more, hmore, hlinks, hend⟩ := ih hnextne hnextspells hnextstops
      refine ⟨gap ++ (text' ++ more), ?_, .cons hne hspells hgap
        (hstops.endsBefore hgap) hlinks, ?_⟩
      · rw [List.append_assoc, List.append_assoc]
        exact congrArg (fun rest => gap ++ (text' ++ rest)) hmore
      · intro link hlink
        apply hend link
        rwa [List.getLast?_cons_of_ne_nil hlinks.ne_nil] at hlink

/-- What is read as a selector is one of its texts. -/
theorem Selector.exists_of_readWith {argument : ArgumentReader}
    (hargument : argument.Sound) {input rest : Text} {selector : Selector}
    (h : readWith argument input = .ok (selector, rest)) :
    ∃ text, input = text ++ rest ∧ Selector.Spells selector text ∧
      Selector.StopsAt selector rest := by
  obtain ⟨⟨compound, behind⟩, hcompound, hvalue⟩ := exists_of_map_eq_ok h
  replace hvalue : readLinksWith argument compound behind = (selector, rest) :=
    hvalue
  obtain ⟨hne, text, rfl, hspells, hstops⟩ :=
    Compound.exists_of_readWith hargument hcompound
  obtain ⟨more, hmore, hlinks, hend⟩ :=
    exists_of_readLinksWith hargument hne hspells hstops
  rw [hvalue] at hmore hlinks hend
  exact ⟨text ++ more, by rw [hmore, List.append_assoc], hlinks, hend⟩

/-! ## Lists -/

theorem Selector.StopsAt.endsBefore {selector : Selector} {back rest : Text}
    (h : StopsAt selector (back ++ rest)) (hback : Text.IsBlank back) :
    EndsBefore selector back := by
  intro link hlink simple hsimple
  cases back with
  | nil => exact simple.endsBefore_nil
  | cons c back =>
      have hblanks : Combinator.Spells .descendant (c :: back) :=
        .descendant (by simp) hback
      exact (h link hlink).endsBefore hblanks simple hsimple

theorem Selector.exists_of_readMembersWith {argument : ArgumentReader}
    (hargument : argument.Sound) {input rest : Text} {members : List Selector}
    (h : readMembersWith argument input = .ok (members, rest))
    (hends : (Text.skipBlanks rest).head? ≠ some ',') {selector : Selector}
    {front text : Text} (hfront : Text.IsBlank front)
    (hspells : Selector.Spells selector text) (hstops : StopsAt selector input) :
    ∃ list, front ++ (text ++ input) = list ++ Text.skipBlanks rest ∧
      SpellsList (selector :: members) list := by
  fun_induction readMembersWith argument input
    generalizing members selector front text with
  | case1 input behind hcomma next after hnext ih =>
      obtain ⟨⟨more, last⟩, hmore, hvalue⟩ := exists_of_map_eq_ok h
      cases hvalue
      obtain ⟨back, hback, hinput, _⟩ := Text.exists_skipBlanks input
      obtain ⟨front', hfront', hbehind, _⟩ := Text.exists_skipBlanks behind
      obtain ⟨text', htext', hnextspells, hnextstops⟩ :=
        exists_of_readWith hargument hnext
      obtain ⟨list, hlist, hspellsList⟩ := ih hmore hfront' hnextspells hnextstops
      rw [← htext', ← hbehind] at hlist
      rw [hcomma] at hinput
      rw [hinput] at hstops
      refine ⟨front ++ (text ++ (back ++ ',' :: list)), ?_,
        .cons hfront hspells (hstops.endsBefore hback) hback hspellsList⟩
      rw [hinput, hlist]
      simp
  | case2 input behind hcomma =>
      cases h
      rw [hcomma] at hends
      exact absurd rfl hends
  | case3 => cases h
  | case4 input hcomma =>
      cases h
      obtain ⟨back, hback, hrest, _⟩ := Text.exists_skipBlanks rest
      rw [hrest] at hstops
      refine ⟨front ++ (text ++ back), ?_,
        .last hfront hspells (hstops.endsBefore hback) hback⟩
      rw [List.append_assoc, List.append_assoc, ← hrest]

/-- What is read as a list, together with the blanks behind it, is one of its
texts. -/
theorem Selector.exists_of_readListWith {argument : ArgumentReader}
    (hargument : argument.Sound) {input rest : Text} {members : List Selector}
    (h : readListWith argument input = .ok (members, rest))
    (hends : (Text.skipBlanks rest).head? ≠ some ',') :
    ∃ list, input = list ++ Text.skipBlanks rest ∧ SpellsList members list := by
  obtain ⟨front, hfront, hinput, _⟩ := Text.exists_skipBlanks input
  unfold readListWith at h
  split at h
  · rename_i selector after hselector
    obtain ⟨⟨more, last⟩, hmore, hvalue⟩ := exists_of_map_eq_ok h
    cases hvalue
    obtain ⟨text, htext, hspells, hstops⟩ := exists_of_readWith hargument hselector
    rw [hinput, htext]
    exact exists_of_readMembersWith hargument hmore hends hfront hspells hstops
  · cases h

theorem Selector.spellsList_of_readArgumentWith {argument : ArgumentReader}
    (hargument : argument.Sound) {content : Text} {members : List Selector}
    (h : readArgumentWith argument content = .ok members) :
    SpellsList members content := by
  unfold readArgumentWith at h
  split at h
  · cases h
  · rename_i found rest hlist
    split at h
    · rename_i hrest
      cases h
      obtain ⟨list, hcontent, hspells⟩ :=
        exists_of_readListWith hargument hlist (by simp [hrest])
      rwa [hcontent, hrest, List.append_nil]
    · cases h

/-- The argument reader reads only what is spelled, since it is asked about
shorter and shorter texts. -/
theorem Selector.readArgument_sound : ArgumentReader.Sound readArgument := by
  intro content
  induction hlength : content.length using Nat.strongRecOn generalizing content with
  | ind length ih =>
      intro members h
      rw [readArgument] at h
      apply spellsList_of_readArgumentWith _ h
      intro inner members hinner
      dsimp only at hinner
      split at hinner
      · rename_i hlt
        exact ih inner.length (hlength ▸ hlt) inner rfl members hinner
      · cases hinner

/-- What is read as a selector is one of its texts, and a name at its end could
not have been longer. -/
theorem Selector.exists_of_read {input rest : Text} {selector : Selector}
    (h : read input = .ok (selector, rest)) :
    ∃ text, input = text ++ rest ∧ Selector.Spells selector text ∧
      Selector.StopsAt selector rest :=
  exists_of_readWith readArgument_sound h

end Cascade
