import Cascade.Proofs.Selector.Spelling
import Cascade.Selector.Argument

/-!
# What is spelled is read

Every text of a selector is read as that selector, up to exactly its end, in
front of everything that cannot go on with it.  A compound is followed by a
blank, a comma, a combinator or nothing, and a selector by nothing but blanks
and a comma.
-/

namespace Cascade

/-- Nothing, a comma, or white space that is neither skipped nor a part of a
name: where the members of a list end. -/
def Selector.Ends (rest : Text) : Prop :=
  ∀ c ∈ rest.head?, c = ',' ∨ (Ident.isGap c = true ∧ Text.isBlank c = false)

@[simp]
theorem Selector.ends_nil : Ends [] := by
  rintro _ ⟨⟩

def Selector.Delimits (rest : Text) : Prop :=
  Ends (Text.skipBlanks rest)

/-! ## Simple selectors -/

theorem Ident.Stops.read? {name rest : Text} (h : Stops rest)
    (hname : IsName name) (hclosed : rest.head? = some ' ' → IsClosed name) :
    Ident.read? (name ++ rest) = some (name, rest) :=
  read?_append_iff.mpr ⟨hname, h.unit?_eq_none, hclosed⟩

theorem Simple.readNamed_append {start name rest : Text} {make : Text → Simple}
    (hname : Ident.IsName name)
    (hends : Ident.Stops rest ∧ (rest.head? = some ' ' → Ident.IsClosed name)) :
    readNamed start make (name ++ rest) = .ok (make name, rest) := by
  rw [readNamed, hends.1.read? hname hends.2]

theorem Simple.readWith_of_not_isMark {argument : ArgumentReader} {c : Char}
    {rest : Text} (h : isMark c = false) :
    readWith argument (c :: rest) =
      readNamed (c :: rest) .element (c :: rest) := by
  unfold readWith
  split
  case h_8 => rfl
  all_goals
    rename_i heq
    cases heq
    cases h

theorem Simple.not_isMark_of_nameStart {c : Char}
    (h : c = '\\' ∨ Ident.isNameChar c = true) : isMark c = false := by
  apply Bool.eq_false_iff.mpr
  intro hmark
  simp only [isMark, Bool.or_eq_true, beq_iff_eq] at hmark
  rcases hmark with ((((rfl | rfl) | rfl) | rfl) | rfl) | rfl <;>
    exact absurd h (by decide)

/-- Behind a single colon. -/
theorem Simple.readWith_colon {argument : ArgumentReader} {name rest : Text}
    (hname : Ident.IsName name) :
    readWith argument (':' :: (name ++ rest)) =
      match Ident.read? (name ++ rest) with
      | some (name, '(' :: inside) => readFunction argument name inside
      | some (name, after) => .ok (ofSingleColon name, after)
      | none => .error (.recoverable .name (':' :: (name ++ rest))) := by
  obtain ⟨c, tail, rfl, hc⟩ := hname.exists_cons
  have hcolon : c ≠ ':' := by
    rintro rfl
    revert hc
    decide
  unfold readWith
  split
  case h_3 rest heq =>
    exact absurd (List.cons.inj (List.cons.inj heq).2).1 hcolon
  case h_4 rest heq =>
    cases heq
    rfl
  case h_8 =>
    rename_i hno _ _ _
    exact (hno _ rfl).elim
  all_goals
    rename_i heq
    cases heq

theorem Simple.readWith_function {argument : ArgumentReader}
    {name content rest : Text} (hname : Ident.IsName name)
    (hcontent : Enclosed.Balanced content) :
    readWith argument (':' :: name ++ '(' :: content ++ [')'] ++ rest) =
      if Text.isKeyword listFunctions name then
        (argument content).map fun members =>
          (.selectorFunction name members, rest)
      else .ok (.textFunction name (Text.trim content), rest) := by
  have hstops : Ident.Stops ('(' :: (content ++ ')' :: rest)) :=
    Ident.stops_cons.mpr (by decide)
  have hread := hstops.read? hname (by simp)
  have hwhole : ':' :: name ++ '(' :: content ++ [')'] ++ rest =
      ':' :: (name ++ '(' :: (content ++ ')' :: rest)) := by simp
  rw [hwhole, readWith_colon hname, hread]
  show readFunction argument name (content ++ ')' :: rest) = _
  rw [readFunction, hcontent.groupContent_append]
  rfl

theorem Simple.readWith_singleColon {argument : ArgumentReader}
    {name rest : Text} (hname : Ident.IsName name)
    (hends : Ident.Stops rest ∧ (rest.head? = some ' ' → Ident.IsClosed name))
    (hparen : rest.head? ≠ some '(') :
    readWith argument (':' :: (name ++ rest)) =
      .ok (ofSingleColon name, rest) := by
  rw [readWith_colon hname, hends.1.read? hname hends.2]
  cases rest with
  | nil => rfl
  | cons c rest =>
      have hc : c ≠ '(' := by simpa using hparen
      simp [hc]

/-- A delimiter starts no simple selector. -/
theorem Simple.readWith_delimits {rest : Text} (h : Compound.Delimits rest)
    (argument : ArgumentReader) :
    readWith argument rest = .error (.recoverable .name rest) := by
  have hname : Ident.read? rest = none :=
    Ident.read?_eq_none_of_unit? h.stops.unit?_eq_none
  have hnamed : readNamed rest .element rest =
      .error (.recoverable .name rest) := by
    rw [readNamed, hname]
  cases rest with
  | nil => exact hnamed
  | cons c rest => rw [readWith_of_not_isMark h.cons.1, hnamed]

/-! ## Compounds -/

/-- Neither a delimiter nor a further condition opens the argument of a
function. -/
theorem Compound.Spells.head?_ne_paren {compound : Compound}
    {text rest : Text} (h : Compound.Spells compound text)
    (hstop : Compound.Delimits rest) : (text ++ rest).head? ≠ some '(' := by
  cases compound with
  | nil =>
      cases h
      cases rest with
      | nil => simp
      | cons c rest => simpa using hstop.cons.2.2.2
  | cons simple compound =>
      obtain ⟨c, text, rfl, hc⟩ := h.exists_cons (by simp)
      simp only [List.cons_append, List.head?_cons, ne_eq, Option.some.injEq]
      rintro rfl
      revert hc
      decide

theorem Compound.readTailWith_delimits {rest : Text} (h : Delimits rest)
    (argument : ArgumentReader) : readTailWith argument rest = .ok ([], rest) := by
  rw [readTailWith_of_error (Simple.readWith_delimits h argument)]
  rfl

/-- A run of conditions that starts with one is a compound. -/
theorem Compound.readWith_of_readTailWith {argument : ArgumentReader}
    {input rest : Text} {compound : Compound} (hne : compound ≠ [])
    (h : readTailWith argument input = .ok (compound, rest)) :
    readWith argument input = .ok (compound, rest) := by
  cases hsimple : Simple.readWith argument input with
  | ok found =>
      obtain ⟨simple, after⟩ := found
      rw [readTailWith_of_ok hsimple] at h
      rw [readWith, hsimple]
      exact h
  | error fault =>
      rw [readTailWith_of_error hsimple] at h
      cases hseverity : fault.severity with
      | recoverable =>
          rw [hseverity] at h
          cases h
          exact absurd rfl hne
      | committed =>
          rw [hseverity] at h
          cases h

namespace Selector

/-! ## Combinators -/

theorem skipBlanks_append_of_isStart {blanks : Text} {c : Char}
    (hblanks : Text.IsBlank blanks) (hc : Text.isBlank c = false) (rest : Text) :
    Text.skipBlanks (blanks ++ c :: rest) = c :: rest := by
  rw [Text.skipBlanks_append hblanks, Text.skipBlanks_cons_of_not_isBlank hc]

/-- The gap in front of a compound is its combinator. -/
theorem combinator?_append {combinator : Combinator} {gap : Text}
    (h : combinator.Spells gap) {c : Char} (hc : Simple.isStart c = true)
    (rest : Text) :
    combinator? (gap ++ c :: rest) = some (combinator, c :: rest) := by
  obtain ⟨hblank, hchild, hadjacent, hgeneral, _⟩ := Simple.isStart_spec hc
  cases h with
  | descendant hne hblanks =>
      simp [combinator?, skipBlanks_append_of_isStart hblanks hblank, hchild,
        hadjacent, hgeneral, hne]
  | @marked _ mark front back hmark hfront hback =>
      have hskip := skipBlanks_append_of_isStart hback hblank rest
      have hmarkBlank : Text.isBlank mark = false := by
        cases combinator <;> cases hmark <;> decide
      have hfirst := skipBlanks_append_of_isStart hfront hmarkBlank
        (back ++ c :: rest)
      rw [List.append_assoc, List.cons_append, combinator?, hfirst]
      cases combinator <;> cases hmark <;> simp [hskip]

theorem readWith_of_ok {argument : ArgumentReader} {input rest : Text}
    {compound : Compound}
    (h : Compound.readWith argument input = .ok (compound, rest)) :
    readWith argument input = .ok (readLinksWith argument compound rest) := by
  rw [readWith, h]
  rfl

theorem Ends.compound {rest : Text} (h : Ends rest) : Compound.Delimits rest := by
  intro c hc
  rcases h c hc with rfl | hgap
  · exact .inr (.inl rfl)
  · exact .inl hgap.1

theorem readLinksWith_delimits {rest : Text} (h : Delimits rest)
    (argument : ArgumentReader) (compound : Compound) :
    readLinksWith argument compound rest = ([⟨compound, .none⟩], rest) := by
  have hcombinator : combinator? rest =
      if (Text.skipBlanks rest).length < rest.length then
        some (.descendant, Text.skipBlanks rest)
      else none := by
    unfold combinator?
    unfold Delimits at h
    split
    case h_4 => rfl
    all_goals
      rename_i heq
      rw [heq] at h
      exact absurd (h _ rfl) (by decide)
  have hstop : Compound.Delimits (Text.skipBlanks rest) := h.compound
  by_cases hlt : (Text.skipBlanks rest).length < rest.length
  · rw [if_pos hlt] at hcombinator
    apply readLinksWith_of_error hcombinator
    rw [Compound.readWith, Simple.readWith_delimits hstop]
  · rw [if_neg hlt] at hcombinator
    exact readLinksWith_of_none hcombinator

/-- What ends a selector ends its last compound. -/
theorem Delimits.compound {rest : Text} (h : Delimits rest) :
    Compound.Delimits rest := by
  intro c hc
  obtain ⟨rest, rfl⟩ := List.head?_eq_some_iff.mp hc
  by_cases hblank : Text.isBlank c = true
  · exact .inl (Ident.isGap_of_isBlank hblank)
  · rw [Delimits, Text.skipBlanks_cons_of_not_isBlank (by simpa using hblank)]
      at h
    exact Ends.compound h c rfl

theorem delimits_append {back rest : Text} (hback : Text.IsBlank back)
    (h : Ends rest) : Text.skipBlanks (back ++ rest) = rest ∧
      Delimits (back ++ rest) := by
  have hskip : Text.skipBlanks rest = rest := by
    cases rest with
    | nil => rfl
    | cons c rest =>
        apply Text.skipBlanks_cons_of_not_isBlank
        rcases h c rfl with rfl | hgap
        · decide
        · exact hgap.2
  rw [Delimits, Text.skipBlanks_append hback, hskip]
  exact ⟨rfl, h⟩

end Selector

theorem Compound.EndsBefore.append {compound : Compound} {first : Text}
    (h : EndsBefore compound first) (hne : first ≠ []) (second : Text) :
    EndsBefore compound (first ++ second) :=
  fun simple hsimple => (h simple hsimple).append hne second

theorem Selector.Spells.skipBlanks {selector : Selector} {blanks text : Text}
    (h : Selector.Spells selector text) (hblanks : Text.IsBlank blanks)
    (rest : Text) :
    Text.skipBlanks (blanks ++ (text ++ rest)) = text ++ rest := by
  obtain ⟨c, tail, rfl, hc⟩ := h.exists_cons
  exact skipBlanks_append_of_isStart hblanks (Simple.isStart_spec hc).1 _

/-! ## Lists -/

theorem Selector.EndsBefore.append {selector : Selector} {back rest : Text}
    (h : EndsBefore selector back) (hrest : Ends rest) :
    EndsBefore selector (back ++ rest) := by
  intro link hlink simple hsimple
  cases back with
  | nil =>
      intro name _
      refine ⟨hrest.compound.stops, fun hspace => ?_⟩
      rcases hrest ' ' hspace with hcomma | hgap
      · exact absurd hcomma (by decide)
      · exact absurd hgap.2 (by decide)
  | cons c back => exact (h link hlink simple hsimple).append (by simp) _

theorem Selector.readListWith_of_ok {argument : ArgumentReader}
    {input rest : Text} {selector : Selector}
    (h : readWith argument (Text.skipBlanks input) = .ok (selector, rest)) :
    readListWith argument input =
      (readMembersWith argument rest).map fun (members, after) =>
        (selector :: members, after) := by
  rw [readListWith, h]

/-- Behind a comma the members of a list are read as a list. -/
theorem Selector.readMembersWith_of_readListWith {argument : ArgumentReader}
    {input behind rest : Text} {members : List Selector}
    (hcomma : Text.skipBlanks input = ',' :: behind)
    (h : readListWith argument behind = .ok (members, rest)) :
    readMembersWith argument input = .ok (members, rest) := by
  cases hnext : readWith argument (Text.skipBlanks behind) with
  | ok found =>
      rw [readListWith_of_ok hnext] at h
      rw [readMembersWith_of_ok hcomma hnext, h]
  | error fault =>
      rw [readListWith, hnext] at h
      cases h

/-! ## The readers -/

mutual

theorem Simple.Spells.read {simple : Simple} {text rest : Text}
    (h : simple.Spells text) (hends : simple.EndsBefore rest)
    (hparen : rest.head? ≠ some '(') :
    Simple.readWith Selector.readArgument (text ++ rest) =
      .ok (simple, rest) := by
  cases h with
  | @element name hname =>
      obtain ⟨c, tail, rfl, hc⟩ := hname.exists_cons
      rw [List.cons_append,
        Simple.readWith_of_not_isMark (Simple.not_isMark_of_nameStart hc)]
      exact Simple.readNamed_append hname (hends _ rfl)
  | className hname => exact Simple.readNamed_append hname (hends _ rfl)
  | id hname => exact Simple.readNamed_append hname (hends _ rfl)
  | universal => rfl
  | parent => rfl
  | pseudoClass hname hkeyword =>
      rw [List.cons_append, Simple.readWith_singleColon hname (hends _ rfl) hparen,
        Simple.ofSingleColon, hkeyword]
      rfl
  | pseudoElement hname => exact Simple.readNamed_append hname (hends _ rfl)
  | singleColon hname hkeyword =>
      rw [List.cons_append, Simple.readWith_singleColon hname (hends _ rfl) hparen,
        Simple.ofSingleColon, hkeyword]
      rfl
  | @brackets content name value hclose hvalue =>
      have hcut : Text.cutAt? ']' (content ++ ']' :: rest) =
          some (content, rest) :=
        Text.cutAt?_eq_some_iff.mpr ⟨hclose, rfl⟩
      rw [List.append_assoc, List.cons_append, List.singleton_append]
      show (match Text.cutAt? ']' (content ++ ']' :: rest) with
        | some (content, after) => Except.ok (Simple.ofBrackets content, after)
        | none => .error (Fault.recoverable .name _)) = _
      rw [hcut, ← hvalue]
  | selectorFunction hname hkeyword hcontent hmembers =>
      rw [Simple.readWith_function hname hcontent, if_pos hkeyword,
        hmembers.readArgument]
      rfl
  | textFunction hname hkeyword hcontent hargument =>
      rw [Simple.readWith_function hname hcontent, if_neg (by simp [hkeyword]),
        hargument]

theorem Compound.Spells.readTail {compound : Compound} {text rest : Text}
    (h : Compound.Spells compound text)
    (hends : Compound.EndsBefore compound rest)
    (hstop : Compound.Delimits rest) :
    Compound.readTailWith Selector.readArgument (text ++ rest) =
      .ok (compound, rest) := by
  cases h with
  | nil => exact Compound.readTailWith_delimits hstop _
  | cons hsimple hjoint hcompound =>
      have hread := hsimple.read (Compound.endsBefore_append hcompound hjoint hends)
        (hcompound.head?_ne_paren hstop)
      rw [List.append_assoc, Compound.readTailWith_of_ok hread,
        hcompound.readTail hends.tail hstop]
      rfl

theorem Selector.Spells.read {selector : Selector} {text rest : Text}
    (h : Selector.Spells selector text)
    (hends : Selector.EndsBefore selector rest)
    (hstop : Selector.Delimits rest) :
    Selector.readWith Selector.readArgument (text ++ rest) =
      .ok (selector, rest) := by
  cases h with
  | last hne hcompound =>
      rw [Selector.endsBefore_singleton] at hends
      have hread := Compound.readWith_of_readTailWith hne
        (hcompound.readTail hends hstop.compound)
      rw [Selector.readWith_of_ok hread, Selector.readLinksWith_delimits hstop]
  | @cons compound combinator links text gap tail hne hcompound hgap hjoint
      hlinks =>
      obtain ⟨c, start, hstart, hc⟩ := hlinks.exists_cons
      have hgapne : gap ≠ [] := by
        obtain ⟨_, _, rfl, _⟩ := hgap.exists_cons
        simp
      have hread := Compound.readWith_of_readTailWith hne
        (hcompound.readTail (hjoint.append hgapne (tail ++ rest))
          (hgap.delimits _))
      have hnext := hlinks.read
        ((Selector.endsBefore_cons hlinks.ne_nil).mp hends) hstop
      have hcombinator := Selector.combinator?_append hgap hc (start ++ rest)
      rw [← List.cons_append, ← hstart] at hcombinator
      obtain ⟨⟨next, after⟩, hfirst, hvalue⟩ := exists_of_map_eq_ok hnext
      replace hvalue : Selector.readLinksWith Selector.readArgument next after = (links, rest) :=
        hvalue
      rw [List.append_assoc, List.append_assoc, Selector.readWith_of_ok hread,
        Selector.readLinksWith_of_ok hcombinator hfirst, hvalue]

theorem Selector.SpellsList.read {members : List Selector} {text rest : Text}
    (h : Selector.SpellsList members text) (hends : Selector.Ends rest)
    (hcomma : rest.head? ≠ some ',') :
    ∃ back, Text.IsBlank back ∧
      Selector.readListWith Selector.readArgument (text ++ rest) =
        .ok (members, back ++ rest) := by
  cases h with
  | @last selector front text back hfront hselector hjoint hback =>
      obtain ⟨hskip, hstop⟩ := Selector.delimits_append hback hends
      have hread := hselector.read (hjoint.append hends) hstop
      refine ⟨back, hback, ?_⟩
      rw [List.append_assoc, List.append_assoc,
        Selector.readListWith_of_ok (by rw [hselector.skipBlanks hfront, hread]),
        Selector.readMembersWith_of_no_comma (by
          rintro behind hbehind
          rw [hskip] at hbehind
          exact hcomma (by rw [hbehind]; rfl))]
      rfl
  | @cons selector members front text back tail hfront hselector hjoint hback
      hmembers =>
      have hmark : Selector.Ends (',' :: (tail ++ rest)) := by
        rintro _ ⟨⟩
        exact .inl rfl
      obtain ⟨hskip, hstop⟩ := Selector.delimits_append hback hmark
      have hread := hselector.read (hjoint.append hmark) hstop
      obtain ⟨behind, hblank, hrest⟩ := hmembers.read hends hcomma
      refine ⟨behind, hblank, ?_⟩
      rw [List.append_assoc, List.append_assoc, List.append_assoc, List.cons_append,
        Selector.readListWith_of_ok (by rw [hselector.skipBlanks hfront, hread]),
        Selector.readMembersWith_of_readListWith hskip hrest]
      rfl

/-- The text of a function's argument. -/
theorem Selector.SpellsList.readArgument {members : List Selector}
    {text : Text} (h : Selector.SpellsList members text) :
    Selector.readArgument text = .ok members := by
  obtain ⟨back, hblank, hread⟩ := h.read Selector.ends_nil (by simp)
  rw [List.append_nil, List.append_nil] at hread
  rw [Selector.readArgument_eq, Selector.readArgumentWith, hread]
  simp only [Text.skipBlanks_eq_nil_iff.mpr hblank]

end

end Cascade
