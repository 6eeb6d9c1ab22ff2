import Cascade.Proofs.Selector.Printable

/-!
# What printed text says

The printed text of a printable tree is a text of `asRead` of that tree.  An
open name in front of a combinator takes the combinator's space along: in front
of a descendant the two compounds grow together, in front of any other
combinator the name is closed.  Nothing happens to a sealed tree, whose printed
text is therefore a text of its own.
-/

namespace Cascade

/-! ## Longer names -/

theorem Ident.isClosed_of_nameChars {name : Text} (hne : name ≠ [])
    (h : ∀ c ∈ name, isNameChar c = true) : IsClosed name := by
  rw [isClosed_iff]
  refine ⟨?_, hne⟩
  clear hne
  induction name with
  | nil => exact .nil (unit?_space [])
  | cons c rest ih =>
      rw [List.forall_mem_cons] at h
      have hunit : unit? ([c] ++ (rest ++ [' '])) = some ([c], rest ++ [' ']) :=
        unit?_eq_some_iff.mpr (.inr ⟨c, rfl, rfl, h.1⟩)
      exact .cons hunit (ih h.2)

theorem Ident.isNameChar_of_toLower {c : Char}
    (h : isNameChar c.toLower = true) : isNameChar c = true := by
  by_cases hupper : c.isUpper = true
  · exact isNameChar_of_isAlpha (Bool.or_eq_true_iff.mpr (.inl hupper))
  · have hsame : c.toLower = c := dif_neg fun h => hupper (decide_eq_true h)
    rwa [hsame] at h

/-- The names of the elements that may stand behind a single colon hold no
escape, so no open name begins like one of them. -/
theorem Simple.not_singleColon_append {name : Text} (hname : Ident.IsName name)
    (hopen : ¬ Ident.IsClosed name) (more : Text) :
    Text.isKeyword singleColonElements (name ++ more) = false := by
  have hwords : ∀ word ∈ singleColonElements,
      word.all Ident.isNameChar = true := by decide
  apply Bool.eq_false_iff.mpr
  intro hkeyword
  simp only [Text.isKeyword, List.contains_iff_mem] at hkeyword
  apply hopen
  apply Ident.isClosed_of_nameChars (Ident.isName_iff.mp hname).2
  intro c hc
  apply Ident.isNameChar_of_toLower
  apply List.all_eq_true.mp (hwords _ hkeyword)
  exact List.mem_map_of_mem (List.mem_append_left _ hc)

theorem Simple.lastName?_lengthen (simple : Simple) (more : Text) :
    (simple.lengthen more).lastName? =
      simple.lastName?.map fun name => name ++ more := by
  cases simple <;> rfl

theorem Simple.Spells.isName {simple : Simple} {text name : Text}
    (h : simple.Spells text) (hname : name ∈ simple.lastName?) :
    Ident.IsName name := by
  cases h <;> cases hname <;> assumption

theorem Simple.Spells.lengthen {simple : Simple} {text name more : Text}
    (h : simple.Spells text) (hlast : name ∈ simple.lastName?)
    (hopen : ¬ Ident.IsClosed name) (hmore : Ident.IsName (name ++ more)) :
    (simple.lengthen more).Spells (text ++ more) := by
  cases h with
  | element =>
      cases hlast
      exact .element hmore
  | className =>
      cases hlast
      exact .className hmore
  | id =>
      cases hlast
      exact .id hmore
  | pseudoClass hname =>
      cases hlast
      exact .pseudoClass hmore (not_singleColon_append hname hopen more)
  | pseudoElement =>
      cases hlast
      exact .pseudoElement hmore
  | singleColon hname hkeyword =>
      cases hlast
      have hno := not_singleColon_append hname hopen []
      rw [List.append_nil, hkeyword] at hno
      cases hno
  | universal => cases hlast
  | parent => cases hlast
  | brackets => cases hlast
  | selectorFunction => cases hlast
  | textFunction => cases hlast

namespace Compound

theorem getLast?_lengthen (more : Text) (compound : Compound) :
    (lengthen more compound).getLast? =
      compound.getLast?.map (Simple.lengthen more) := by
  fun_induction lengthen more compound with
  | case1 => rfl
  | case2 => rfl
  | case3 simple next rest ih =>
      rw [List.getLast?_cons_cons, ← ih, List.getLast?_cons_of_ne_nil]
      cases rest <;> simp [lengthen]

theorem lengthen_ne_nil {compound : Compound} (h : compound ≠ [])
    (more : Text) : lengthen more compound ≠ [] := by
  fun_cases lengthen more compound <;> simp_all

/-- An unsealed compound ends in a name that a space would become part of. -/
theorem not_isSealed_iff {compound : Compound} :
    ¬ IsSealed compound ↔ ∃ simple ∈ compound.getLast?,
      ∃ name ∈ simple.lastName?, ¬ Ident.IsClosed name := by
  simp [IsSealed]

/-- A compound may be lengthened by what makes its last name a longer one. -/
theorem Spells.lengthen {compound : Compound} {text : Text}
    (h : Compound.Spells compound text) (more : Text)
    (hopen : ¬ IsSealed compound)
    (hmore : ∀ name, Ident.IsName name → ¬ Ident.IsClosed name →
      Ident.IsName (name ++ more)) :
    Compound.Spells (Compound.lengthen more compound) (text ++ more) := by
  induction compound generalizing text with
  | nil => exact absurd (by rintro _ ⟨⟩) hopen
  | cons simple rest ih =>
      cases h with
      | @cons _ _ text _ hsimple hends hrest =>
          cases rest with
          | nil =>
              cases hrest
              obtain ⟨_, ⟨⟩, name, hname, hopen⟩ := not_isSealed_iff.mp hopen
              have hlong := hsimple.lengthen hname hopen
                (hmore name (hsimple.isName hname) hopen)
              have hwhole := Compound.Spells.cons hlong (Simple.endsBefore_nil _) .nil
              rwa [List.append_nil] at hwhole ⊢
          | cons next rest =>
              obtain ⟨c, tail, rfl, _⟩ := hrest.exists_cons (by simp)
              rw [List.append_assoc]
              have hlonger := ih hrest (by simpa [IsSealed] using hopen)
              exact .cons hsimple (hends.append (by simp) more) hlonger

theorem absorb_ne_nil {first : Compound} (h : first ≠ [])
    (second : Compound) : absorb first second ≠ [] := by
  fun_cases absorb first second <;> simp [lengthen_ne_nil h]

/-- Where a lengthened compound ends. -/
theorem endsBefore_lengthen {compound : Compound} {more rest : Text}
    (hstops : Ident.Stops rest) (hclosed : rest.head? = some ' ' →
      ∀ simple ∈ compound.getLast?, ∀ name ∈ simple.lastName?,
        Ident.IsClosed (name ++ more)) :
    EndsBefore (lengthen more compound) rest := by
  intro last hlast
  rw [getLast?_lengthen] at hlast
  obtain ⟨simple, hsimple, rfl⟩ := Option.map_eq_some_iff.mp hlast
  intro long hlong
  rw [Simple.lastName?_lengthen] at hlong
  obtain ⟨name, hname, rfl⟩ := Option.map_eq_some_iff.mp hlong
  exact ⟨hstops, fun hspace => hclosed hspace simple hsimple name hname⟩

/-- Two compounds side by side are one. -/
theorem Spells.append {first second : Compound} {text tail : Text}
    (hfirst : Compound.Spells first text) (hends : EndsBefore first tail)
    (hsecond : Compound.Spells second tail) :
    Compound.Spells (first ++ second) (text ++ tail) := by
  induction first generalizing text with
  | nil =>
      cases hfirst
      exact hsecond
  | cons simple rest ih =>
      cases hfirst with
      | cons hsimple hjoint hrest =>
          rw [List.append_assoc]
          exact .cons hsimple (endsBefore_append hrest hjoint hends)
            (ih hrest hends.tail)

theorem EndsBefore.append_left {second : Compound} {rest : Text}
    (h : EndsBefore second rest) (hne : second ≠ []) (first : Compound) :
    EndsBefore (first ++ second) rest := by
  intro simple hsimple
  apply h simple
  rwa [List.getLast?_append, List.getLast?_eq_some_getLast hne, Option.some_or,
    ← List.getLast?_eq_some_getLast hne] at hsimple

/-- The name at the end of an unsealed compound is open. -/
theorem Spells.isOpen {compound : Compound} {text : Text}
    (h : Compound.Spells compound text) (hopen : ¬ IsSealed compound) :
    ∀ simple ∈ compound.getLast?, ∀ name ∈ simple.lastName?,
      Ident.IsName name ∧ ¬ Ident.IsClosed name := by
  obtain ⟨last, hlast, found, hfound, hnot⟩ := not_isSealed_iff.mp hopen
  intro simple hsimple name hname
  obtain rfl : last = simple := Option.some.inj (hlast.symm.trans hsimple)
  obtain rfl : found = name := Option.some.inj (hfound.symm.trans hname)
  obtain ⟨text, htext⟩ := h.exists_of_mem (List.mem_of_getLast? hlast)
  exact ⟨htext.isName hname, hnot⟩

/-- The space between two compounds becomes part of an open name in front of
it, and a name behind it as well. -/
theorem Spells.absorb {first second : Compound} {text tail : Text}
    (hfirst : Compound.Spells first text) (hopen : ¬ IsSealed first)
    (hsecond : Compound.Spells second tail) (hne : second ≠ []) :
    Compound.Spells (Compound.absorb first second) (text ++ ' ' :: tail) ∧
      ∀ rest, EndsBefore second rest →
        EndsBefore (Compound.absorb first second) rest := by
  have hlast := hfirst.isOpen hopen
  cases hsecond with
  | nil => exact absurd rfl hne
  | @cons simple compound start tail hsimple hends hrest =>
      by_cases helement : ∃ name, simple = .element name
      · obtain ⟨next, rfl⟩ := helement
        cases hsimple with
        | element hnext =>
            have hlong := hfirst.lengthen (' ' :: start) hopen
              fun name hname hopen => hname.append_space_append hopen hnext
            have hlongEnds {rest : Text}
                (h : Simple.EndsBefore (.element start) rest) :
                EndsBefore (Compound.lengthen (' ' :: start) first) rest := by
              obtain ⟨hstops, hclosed⟩ := h start rfl
              apply endsBefore_lengthen hstops
              intro hspace simple hsimple name hname
              obtain ⟨hisName, hnot⟩ := hlast simple hsimple name hname
              exact hisName.isClosed_append_space_append hnot (hclosed hspace)
            refine ⟨?_, ?_⟩
            · simpa [Compound.absorb] using hlong.append (hlongEnds hends) hrest
            · intro rest hrestEnds
              cases compound with
              | nil =>
                  rw [endsBefore_singleton] at hrestEnds
                  simpa [Compound.absorb] using hlongEnds hrestEnds
              | cons next compound =>
                  exact hrestEnds.tail.append_left (by simp) _
      · have hmark := hsimple.exists_mark fun name heq => helement ⟨name, heq⟩
        have habsorb : Compound.absorb first (simple :: compound) =
            Compound.lengthen [' '] first ++ simple :: compound := by
          cases simple with
          | element name => exact absurd ⟨name, rfl⟩ helement
          | _ => rfl
        have hlong := hfirst.lengthen [' '] hopen
          fun name hname hopen => (hname.isClosed_append_space hopen).isName
        have hlongEnds : EndsBefore (Compound.lengthen [' '] first)
            (start ++ tail) := by
          obtain ⟨c, start, rfl, hc⟩ := hmark
          obtain ⟨hbackslash, hname, hspace⟩ := Simple.isMark_spec hc
          apply endsBefore_lengthen (Ident.stops_cons.mpr ⟨hbackslash, hname⟩)
          intro h
          exact absurd (Option.some.inj h) hspace
        rw [habsorb]
        refine ⟨?_, fun rest h => h.append_left (by simp) _⟩
        simpa using hlong.append hlongEnds (.cons hsimple hends hrest)

end Compound

theorem Combinator.spells_text {combinator : Combinator}
    (h : combinator ≠ .none) : combinator.Spells combinator.text := by
  have hspace := Text.isBlank_space
  cases combinator with
  | none => exact absurd rfl h
  | descendant => exact .descendant (by decide) hspace
  | child => exact .marked (rfl : Combinator.mark? .child = _) hspace hspace
  | adjacent => exact .marked (rfl : Combinator.mark? .adjacent = _) hspace hspace
  | general => exact .marked (rfl : Combinator.mark? .general = _) hspace hspace

/-- The printed text of a combinator starts with a space, behind which a marked
combinator goes on. -/
theorem Combinator.text_cases {combinator : Combinator}
    (h : combinator ≠ .none) :
    (combinator = .descendant ∧ combinator.text = [' ']) ∨
      combinator ≠ .descendant ∧ ∃ mark, combinator.mark? = some mark ∧
        combinator.text = [' ', mark, ' '] := by
  cases combinator with
  | none => exact absurd rfl h
  | descendant => exact .inl ⟨rfl, rfl⟩
  | child => exact .inr ⟨by decide, '>', rfl, rfl⟩
  | adjacent => exact .inr ⟨by decide, '+', rfl, rfl⟩
  | general => exact .inr ⟨by decide, '~', rfl, rfl⟩

namespace Selector

theorem attach_of_sealed {compound : Compound} (h : Compound.IsSealed compound)
    (combinator : Combinator) (rest : Selector) :
    attach compound combinator rest = ⟨compound, combinator⟩ :: rest :=
  if_pos h

theorem attach_descendant {compound : Compound}
    (h : ¬ Compound.IsSealed compound) (next : Link) (rest : Selector) :
    attach compound .descendant (next :: rest) =
      ⟨Compound.absorb compound next.compound, next.combinator⟩ :: rest := by
  cases next
  exact if_neg h

theorem attach_marked {compound : Compound} (h : ¬ Compound.IsSealed compound)
    {combinator : Combinator} (hmarked : combinator ≠ .descendant)
    (rest : Selector) :
    attach compound combinator rest =
      ⟨Compound.lengthen [' '] compound, combinator⟩ :: rest := by
  refine (if_neg h).trans ?_
  cases combinator with
  | descendant => exact absurd rfl hmarked
  | _ => rfl

/-- A compound and its combinator in front of the text of a selector. -/
theorem Spells.attach {compound : Compound} {combinator : Combinator}
    {rest : Selector} {text tail : Text} (hne : compound ≠ [])
    (hcompound : Compound.Spells compound text) (hcombinator : combinator ≠ .none)
    (hrest : Selector.Spells rest tail) :
    Selector.Spells (Selector.attach compound combinator rest)
      (text ++ (combinator.text ++ tail)) := by
  by_cases hsealed : Compound.IsSealed compound
  · rw [attach_of_sealed hsealed]
    have hgap := Combinator.spells_text hcombinator
    refine .cons hne hcompound hgap ?_ hrest
    intro simple hsimple name hname
    have hstops := (hgap.delimits []).stops
    rw [List.append_nil] at hstops
    exact ⟨hstops, fun _ => hsealed simple hsimple name hname⟩
  · have hlong := hcompound.lengthen [' '] hsealed
      fun name hname hopen => (hname.isClosed_append_space hopen).isName
    rcases Combinator.text_cases hcombinator with ⟨rfl, htext⟩ |
      ⟨hmarked, mark, hmark, htext⟩
    · rw [htext, List.singleton_append]
      cases hrest with
      | last hnextne hnext =>
          obtain ⟨habsorb, _⟩ := hcompound.absorb hsealed hnext hnextne
          rw [attach_descendant hsealed]
          exact .last (Compound.absorb_ne_nil hne _) habsorb
      | cons hnextne hnext hgap hends hrest =>
          obtain ⟨habsorb, habsorbEnds⟩ := hcompound.absorb hsealed hnext hnextne
          rw [attach_descendant hsealed, ← List.cons_append,
            ← List.append_assoc]
          exact .cons (Compound.absorb_ne_nil hne _) habsorb hgap
            (habsorbEnds _ hends) hrest
    · rw [attach_marked hsealed hmarked, htext]
      have hgap : combinator.Spells [mark, ' '] :=
        .marked hmark Text.isBlank_nil Text.isBlank_space
      have hends : Compound.EndsBefore (Compound.lengthen [' '] compound)
          [mark, ' '] := by
        have hstops := (hgap.delimits []).stops
        apply Compound.endsBefore_lengthen hstops
        intro hspace
        cases combinator <;> cases hmark <;> cases hspace
      have hwhole := Spells.cons (Compound.lengthen_ne_nil hne [' ']) hlong hgap
        hends hrest
      simpa using hwhole

end Selector

/-! ## The printed text -/

theorem Simple.lastName?_asRead (simple : Simple) :
    simple.asRead.lastName? = simple.lastName? := by
  cases simple <;> rfl

theorem Simple.isNamedElement_asRead (simple : Simple) :
    simple.asRead.isNamedElement = simple.isNamedElement := by
  cases simple <;> rfl

/-- A condition that is no named element leaves the one in front of it alone. -/
theorem Simple.Spells.endsBefore {simple next : Simple} {text : Text}
    (h : next.Spells text) (hjoined : simple.lastName?.isSome = true →
      next.isNamedElement = false) : simple.EndsBefore text := by
  intro name hname
  have hnext : next.isNamedElement = false := hjoined (by rw [hname]; rfl)
  obtain ⟨c, rest, rfl, hc⟩ := h.exists_mark (by rintro _ rfl; cases hnext)
  obtain ⟨hbackslash, hnameChar, hspace⟩ := isMark_spec hc
  exact ⟨Ident.stops_cons.mpr ⟨hbackslash, hnameChar⟩,
    fun h => absurd (Option.some.inj h) hspace⟩

theorem Simple.spells_brackets {name value : Text}
    (hname : Text.trim name = name) (hvalue : Text.trim value = value)
    (hclose : ']' ∉ name) (hclose' : ']' ∉ value) (hequals : '=' ∉ name) :
    Simple.Spells (.attribute name value)
      (Simple.text (.attribute name value)) := by
  rw [text_attribute]
  exact .brackets (not_mem_bracketContent hclose hclose')
    (ofBrackets_bracketContent hname hvalue hequals)

theorem Compound.spells_text {compound : Compound}
    (hjoined : compound ≠ [] → Compound.Joined compound)
    (h : ∀ simple ∈ compound, simple.asRead.Spells simple.text) :
    Compound.Spells (Compound.asRead compound) (Compound.text compound) := by
  induction compound with
  | nil => exact .nil
  | cons simple rest ih =>
      rw [List.forall_mem_cons] at h
      cases rest with
      | nil => exact .cons h.1 (Simple.endsBefore_nil _) .nil
      | cons next rest =>
          obtain ⟨hfirst, hrest⟩ := hjoined (by simp)
          have hnext := h.2 next (by simp)
          have hends : simple.asRead.EndsBefore next.text := by
            apply hnext.endsBefore
            rwa [Simple.lastName?_asRead, Simple.isNamedElement_asRead]
          have hne : next.text ≠ [] := by
            obtain ⟨_, _, heq, _⟩ := hnext.exists_cons
            simp [heq]
          exact .cons h.1 (hends.append hne _) (ih (fun _ => hrest) h.2)

theorem Compound.asRead_ne_nil {compound : Compound} (h : compound ≠ []) :
    Compound.asRead compound ≠ [] := by
  cases compound with
  | nil => exact absurd rfl h
  | cons simple rest => simp [Compound.asRead]

theorem Compound.Joined.ne_nil {compound : Compound} (h : Joined compound) :
    compound ≠ [] := by
  rintro rfl
  exact h

theorem Selector.spells_text {selector : Selector}
    (hlinked : Selector.Linked selector)
    (hjoined : ∀ link ∈ selector, Compound.Joined link.compound)
    (h : ∀ link ∈ selector, ∀ simple ∈ link.compound,
      simple.asRead.Spells simple.text) :
    Selector.Spells (Selector.asRead selector) (Selector.text selector) := by
  induction selector with
  | nil => exact hlinked.elim
  | cons link rest ih =>
      obtain ⟨compound, combinator⟩ := link
      rw [List.forall_mem_cons] at h hjoined
      have hne := Compound.asRead_ne_nil hjoined.1.ne_nil
      have hcompound := Compound.spells_text (fun _ => hjoined.1) h.1
      cases rest with
      | nil =>
          obtain rfl : combinator = .none := hlinked
          simpa [Selector.text, Selector.asRead, Combinator.text] using
            Selector.Spells.last hne hcompound
      | cons next rest =>
          obtain ⟨hcombinator, hrest⟩ := hlinked
          rw [Selector.text, Selector.asRead, List.append_assoc]
          exact .attach hne hcompound hcombinator (ih hrest hjoined.2 h.2)

theorem Selector.Spells.endsBefore_nil {selector : Selector} :
    Selector.EndsBefore selector [] :=
  fun _ _ _ _ => Simple.endsBefore_nil _

theorem Selector.spells_listText {members : List Selector} (hne : members ≠ [])
    (h : ∀ member ∈ members,
      Selector.Spells (Selector.asRead member) (Selector.text member))
    {front : Text} (hfront : Text.IsBlank front) :
    Selector.SpellsList (Selector.listAsRead members)
      (front ++ Selector.listText members) := by
  induction members generalizing front with
  | nil => exact absurd rfl hne
  | cons selector rest ih =>
      rw [List.forall_mem_cons] at h
      cases rest with
      | nil =>
          have hlast := Selector.SpellsList.last hfront h.1
            Selector.Spells.endsBefore_nil Text.isBlank_nil
          rwa [List.append_nil] at hlast
      | cons next rest =>
          exact .cons hfront h.1 Selector.Spells.endsBefore_nil Text.isBlank_nil
            (ih (by simp) h.2 Text.isBlank_space)

mutual

theorem Simple.Printable.spells {simple : Simple} (h : simple.Printable) :
    simple.asRead.Spells simple.text :=
  match h with
  | .element hname => .element hname
  | .className hname => .className hname
  | .id hname => .id hname
  | .universal => .universal
  | .pseudoClass hname hkeyword => .pseudoClass hname hkeyword
  | .pseudoElement hname => .pseudoElement hname
  | .parent => .parent
  | .brackets hname hvalue hclose hclose' hequals =>
      Simple.spells_brackets hname hvalue hclose hclose' hequals
  | .selectorFunction hname hkeyword hne hmembers hbalanced =>
      .selectorFunction hname hkeyword hbalanced
        (Selector.spells_listText hne
          (fun member hmember => (hmembers member hmember).spells)
          Text.isBlank_nil)
  | .textFunction hname hkeyword htrim hargument =>
      .textFunction hname hkeyword hargument htrim

/-- The printed text of a printable selector is a text of what it is read as. -/
theorem Selector.Printable.spells {selector : Selector}
    (h : selector.Printable) :
    Selector.Spells (Selector.asRead selector) (Selector.text selector) :=
  match h with
  | .intro hlinked hjoined hsimples =>
      Selector.spells_text hlinked hjoined fun link hlink simple hsimple =>
        (hsimples link hlink simple hsimple).spells

end

/-! ## Sealed selectors -/

theorem Simple.Printable.members {simple : Simple} (h : simple.Printable) :
    ∀ member ∈ simple.members, Selector.Printable member := by
  cases h with
  | selectorFunction _ _ _ hmembers _ => exact hmembers
  | _ =>
      intro member hmember
      cases hmember

theorem Selector.listAsRead_eq_self {members : List Selector}
    (h : ∀ member ∈ members, Selector.asRead member = member) :
    Selector.listAsRead members = members := by
  induction members with
  | nil => rfl
  | cons selector rest ih =>
      rw [List.forall_mem_cons] at h
      rw [Selector.listAsRead, h.1, ih h.2]

theorem Simple.asRead_eq_self {simple : Simple}
    (h : ∀ member ∈ simple.members, Selector.asRead member = member) :
    simple.asRead = simple := by
  cases simple with
  | selectorFunction name members =>
      exact congrArg (Simple.selectorFunction name)
        (Selector.listAsRead_eq_self h)
  | _ => rfl

theorem Compound.asRead_eq_self {compound : Compound}
    (h : ∀ simple ∈ compound, simple.asRead = simple) :
    Compound.asRead compound = compound := by
  induction compound with
  | nil => rfl
  | cons simple rest ih =>
      rw [List.forall_mem_cons] at h
      rw [Compound.asRead, h.1, ih h.2]

theorem Selector.asRead_eq_self {selector : Selector}
    (hcompounds : ∀ link ∈ selector,
      Compound.asRead link.compound = link.compound)
    (hlinked : Selector.Linked selector)
    (hsealed : ∀ link ∈ selector, link.combinator ≠ .none →
      Compound.IsSealed link.compound) :
    Selector.asRead selector = selector := by
  induction selector with
  | nil => rfl
  | cons link rest ih =>
      obtain ⟨compound, combinator⟩ := link
      rw [List.forall_mem_cons] at hcompounds hsealed
      cases rest with
      | nil => rw [Selector.asRead, hcompounds.1]
      | cons next rest =>
          rw [Selector.asRead, hcompounds.1,
            Selector.attach_of_sealed (hsealed.1 hlinked.1),
            ih hcompounds.2 hlinked.2 hsealed.2]

/-- A sealed selector is read as itself. -/
theorem Selector.asRead_of_sealed {selector : Selector}
    (hprintable : selector.Printable) (hsealed : Selector.Sealed selector) :
    Selector.asRead selector = selector :=
  match hprintable, hsealed with
  | .intro hlinked _ hsimples, .intro hlinks hmembers =>
      Selector.asRead_eq_self (fun link hlink =>
        Compound.asRead_eq_self fun simple hsimple =>
          Simple.asRead_eq_self fun member hmember =>
            Selector.asRead_of_sealed
              ((hsimples link hlink simple hsimple).members member hmember)
              (hmembers link hlink simple hsimple member hmember))
        hlinked hlinks

theorem Simple.WellFormed.isClosed {simple : Simple} (h : simple.WellFormed) :
    ∀ name ∈ simple.lastName?, Ident.IsClosed name := by
  intro name hname
  cases h <;> cases hname <;> assumption

mutual

theorem Simple.WellFormed.sealed {simple : Simple} (h : simple.WellFormed) :
    ∀ member ∈ simple.members, Selector.Sealed member :=
  match h with
  | .selectorFunction _ _ _ hmembers _ =>
      fun member hmember => (hmembers member hmember).sealed
  | .element _ => by rintro _ ⟨⟩
  | .className _ => by rintro _ ⟨⟩
  | .id _ => by rintro _ ⟨⟩
  | .universal => by rintro _ ⟨⟩
  | .pseudoClass _ _ => by rintro _ ⟨⟩
  | .pseudoElement _ => by rintro _ ⟨⟩
  | .parent => by rintro _ ⟨⟩
  | .brackets _ _ _ _ _ => by rintro _ ⟨⟩
  | .textFunction _ _ _ _ => by rintro _ ⟨⟩

theorem Selector.WellFormed.sealed {selector : Selector}
    (h : selector.WellFormed) : Selector.Sealed selector :=
  match h with
  | .intro _ _ hsimples =>
      .intro
        (fun link hlink _ simple hsimple =>
          (hsimples link hlink simple (List.mem_of_getLast? hsimple)).isClosed)
        fun link hlink simple hsimple =>
          (hsimples link hlink simple hsimple).sealed

end

end Cascade
