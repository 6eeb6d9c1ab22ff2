import Cascade.Proofs.Selector.Assembled
import Cascade.Proofs.Selector.RoundTrip
import Cascade.Proofs.Text.Unclosed

/-!
# Arguments that do not end

Trimming can take the space of an escape at the end of a text argument.  The
backslash left behind takes the closing parenthesis along, so the group is never
closed: if no attribute brings a parenthesis of its own, every condition leaves
at least as many groups open as it found.  The function cannot be read then, and
what stands in front of it is not read to the end of the text.
-/

namespace Cascade

open Enclosed (Balanced)
open Enclosed.Nesting

/-! ## Printed texts -/

def Simple.HasPlainAttributes (simple : Simple) : Prop :=
  simple.HasPlainAttribute ∧
    ∀ member ∈ simple.members, Selector.HasPlainAttributes member

/-- A condition whose printed text leaves a group open unless it is intact. -/
def Simple.IntactOrOpen (simple : Simple) : Prop :=
  ∃ count, OpensGroups count simple.text ∧ (count = 0 → simple.Intact)

theorem Compound.exists_opensGroups {compound : Compound}
    (h : ∀ simple ∈ compound, simple.IntactOrOpen) :
    ∃ count, OpensGroups count (Compound.text compound) ∧
      (count = 0 → ∀ simple ∈ compound, simple.Intact) := by
  induction compound with
  | nil => exact ⟨0, keepsStack_nil.outside, by simp⟩
  | cons simple rest ih =>
      rw [List.forall_mem_cons] at h
      obtain ⟨first, hfirst, hintact⟩ := h.1
      obtain ⟨second, hsecond, hintact'⟩ := ih h.2
      refine ⟨second + first, hfirst.append hsecond, fun hzero => ?_⟩
      obtain ⟨rfl, rfl⟩ := Nat.add_eq_zero_iff.mp hzero
      exact List.forall_mem_cons.mpr ⟨hintact rfl, hintact' rfl⟩

theorem Selector.exists_opensGroups {selector : Selector}
    (h : ∀ link ∈ selector, ∀ simple ∈ link.compound, simple.IntactOrOpen) :
    ∃ count, OpensGroups count (Selector.text selector) ∧
      (count = 0 → Selector.Intact selector) := by
  induction selector with
  | nil => exact ⟨0, keepsStack_nil.outside, fun _ => intact_iff.mpr (by simp)⟩
  | cons link rest ih =>
      obtain ⟨compound, combinator⟩ := link
      rw [List.forall_mem_cons] at h
      obtain ⟨first, hfirst, hintact⟩ := Compound.exists_opensGroups h.1
      obtain ⟨second, hsecond, hintact'⟩ := ih h.2
      have hgap := combinator.keepsStack_text.outside.opensGroups
      refine ⟨_, (hfirst.append hgap).append hsecond, fun hzero => ?_⟩
      obtain ⟨rfl, rfl⟩ : first = 0 ∧ second = 0 := by omega
      rw [intact_iff] at hintact' ⊢
      exact List.forall_mem_cons.mpr ⟨hintact rfl, hintact' rfl⟩

theorem Selector.exists_opensGroups_list {members : List Selector}
    (h : ∀ member ∈ members, ∀ link ∈ member, ∀ simple ∈ link.compound,
      simple.IntactOrOpen) :
    ∃ count, OpensGroups count (Selector.listText members) ∧
      (count = 0 → ∀ member ∈ members, Selector.Intact member) := by
  induction members with
  | nil => exact ⟨0, keepsStack_nil.outside, by simp⟩
  | cons selector rest ih =>
      rw [List.forall_mem_cons] at h
      obtain ⟨first, hfirst, hintact⟩ := exists_opensGroups h.1
      obtain ⟨second, hsecond, hintact'⟩ := ih h.2
      cases rest with
      | nil =>
          exact ⟨first, hfirst, fun hzero =>
            List.forall_mem_singleton.mpr (hintact hzero)⟩
      | cons next rest =>
          have hcomma : OpensGroups 0 [',', ' '] :=
            ((keepsStack_char (by decide)).cons (by decide)).outside.opensGroups
          refine ⟨_, hfirst.append (hcomma.append hsecond), fun hzero => ?_⟩
          obtain ⟨rfl, rfl⟩ : first = 0 ∧ second = 0 := by omega
          exact List.forall_mem_cons.mpr ⟨hintact rfl, hintact' rfl⟩

theorem Simple.opensGroups_function {name content : Text} (hname : Ident.IsName name)
    {count : Nat} (hcontent : OpensGroups count ('(' :: content ++ [')'])) :
    OpensGroups count (':' :: name ++ '(' :: content ++ [')']) := by
  rw [List.append_assoc]
  exact ((keepsStack_of_isName hname).outside.cons (by decide)).opensGroups.append hcontent

/-- A condition that can be printed with plain attributes leaves no group open. -/
theorem Simple.Printable.intactOrOpen {simple : Simple} (h : simple.Printable)
    (hplain : simple.HasPlainAttribute) (hintact : simple.Intact) :
    simple.IntactOrOpen :=
  ⟨0, (h.keepsStackOutside hplain).opensGroups, fun _ => hintact⟩

mutual

theorem Simple.Spells.intactOrOpen {simple : Simple} {text : Text}
    (h : simple.Spells text) (hplain : simple.HasPlainAttributes) :
    simple.IntactOrOpen := by
  by_cases hintact : simple.Intact
  · exact (h.printable hintact).1.intactOrOpen hplain.1 hintact
  · cases h with
    | selectorFunction hname _ _ hmembers =>
        obtain ⟨count, hcontent, hmembersIntact⟩ :=
          Selector.exists_opensGroups_list (hmembers.intactOrOpen hplain.2)
        exact ⟨count, Simple.opensGroups_function hname hcontent.group,
          fun hzero => ⟨trivial, hmembersIntact hzero⟩⟩
    | textFunction hname _ hcontent hargument =>
        subst hargument
        have htrim : ¬ Balanced (Text.trim _) :=
          fun hbalanced => hintact ⟨hbalanced, by simp [Simple.members]⟩
        exact ⟨1, Simple.opensGroups_function hname
          (opensGroups_of_run (run_trim hcontent htrim)),
          nofun⟩
    | _ => exact absurd ⟨trivial, by simp [Simple.members]⟩ hintact

theorem Compound.Spells.intactOrOpen {compound : Compound} {text : Text}
    (h : Compound.Spells compound text)
    (hplain : ∀ simple ∈ compound, simple.HasPlainAttributes) :
    ∀ simple ∈ compound, simple.IntactOrOpen := by
  cases h with
  | nil => simp
  | cons hsimple _ hrest =>
      rw [List.forall_mem_cons] at hplain ⊢
      exact ⟨hsimple.intactOrOpen hplain.1, hrest.intactOrOpen hplain.2⟩

theorem Selector.Spells.intactOrOpen {selector : Selector} {text : Text}
    (h : Selector.Spells selector text)
    (hplain : Selector.HasPlainAttributes selector) :
    ∀ link ∈ selector, ∀ simple ∈ link.compound, simple.IntactOrOpen := by
  rw [Selector.HasPlainAttributes, Selector.everywhere_iff] at hplain
  cases h with
  | last _ hcompound =>
      rw [List.forall_mem_singleton] at hplain ⊢
      exact hcompound.intactOrOpen hplain
  | cons _ hcompound _ _ hrest =>
      rw [List.forall_mem_cons] at hplain ⊢
      exact ⟨hcompound.intactOrOpen hplain.1,
        hrest.intactOrOpen (Selector.everywhere_iff.mpr hplain.2)⟩

theorem Selector.SpellsList.intactOrOpen {members : List Selector} {text : Text}
    (h : Selector.SpellsList members text)
    (hplain : ∀ member ∈ members, Selector.HasPlainAttributes member) :
    ∀ member ∈ members, ∀ link ∈ member, ∀ simple ∈ link.compound,
      simple.IntactOrOpen := by
  cases h with
  | last _ hselector _ _ =>
      rw [List.forall_mem_singleton] at hplain ⊢
      exact hselector.intactOrOpen hplain
  | cons _ hselector _ _ hrest =>
      rw [List.forall_mem_cons] at hplain ⊢
      exact ⟨hselector.intactOrOpen hplain.1, hrest.intactOrOpen hplain.2⟩

end

/-! ## Functions that are not read -/

/-- A condition that is not intact is a function whose group is still open
behind its last parenthesis. -/
theorem Simple.Spells.exists_function {simple : Simple} {text : Text}
    (h : simple.Spells text) (hplain : simple.HasPlainAttributes)
    (hbroken : ¬ simple.Intact) :
    ∃ name content count, Ident.IsName name ∧
      simple.text = ':' :: name ++ '(' :: content ++ [')'] ∧
      run start (content ++ [')']) = some ⟨List.replicate count .group, false⟩ := by
  cases h with
  | @selectorFunction name _ members hname _ _ hmembers =>
      obtain ⟨count, hcontent, hintact⟩ :=
        Selector.exists_opensGroups_list (hmembers.intactOrOpen hplain.2)
      cases count with
      | zero => exact absurd ⟨trivial, hintact rfl⟩ hbroken
      | succ count =>
          refine ⟨name, Selector.listText members, count, hname, rfl, ?_⟩
          rw [run_append, start, hcontent [] outside_nil, List.append_nil]
          rfl
  | @textFunction name content _ hname _ hcontent hargument =>
      subst hargument
      have htrim : ¬ Balanced (Text.trim content) :=
        fun hbalanced => hbroken ⟨hbalanced, by simp [Simple.members]⟩
      refine ⟨name, Text.trim content, 0, hname, rfl, ?_⟩
      rw [run_append, run_trim hcontent htrim]
      rfl
  | _ => exact absurd ⟨trivial, by simp [Simple.members]⟩ hbroken

/-- Whether a text begins with a condition that admits no reading. -/
def Simple.FailsCommitted (input : Text) : Prop :=
  input.head? = some ':' ∧ ∃ fault : Fault,
    readWith Selector.readArgument input = .error fault ∧
      fault.severity = .committed

theorem Simple.Spells.failsCommitted {simple : Simple} {text : Text}
    (h : simple.Spells text) (hplain : simple.HasPlainAttributes)
    (hbroken : ¬ simple.Intact) {rest : Text} {count : Nat}
    (hrest : OpensGroups count rest) : Simple.FailsCommitted (simple.text ++ rest) := by
  obtain ⟨name, content, opened, hname, htext, hrun⟩ :=
    h.exists_function hplain hbroken
  have hopen : run start (content ++ ')' :: rest) ≠ none := by
    rw [List.append_cons, run_append, hrun, Option.bind_some]
    have hafter := hrest _ (outside_replicate opened outside_nil)
    rw [List.append_nil] at hafter
    simp [hafter]
  have hstops : Ident.Stops ('(' :: (content ++ ')' :: rest)) :=
    Ident.stops_cons.mpr (by decide)
  have hwhole : ':' :: name ++ '(' :: content ++ [')'] ++ rest =
      ':' :: (name ++ '(' :: (content ++ ')' :: rest)) := by simp
  rw [htext, hwhole]
  refine ⟨rfl, ?_⟩
  rw [Simple.readWith_colon hname, hstops.read? hname (by simp)]
  show ∃ fault : Fault,
    Simple.readFunction _ name (content ++ ')' :: rest) = .error fault ∧ _
  unfold Simple.readFunction
  split
  · rename_i hgroup
    exact absurd (run_eq_none_of_groupContent hgroup) hopen
  · exact ⟨_, rfl, rfl⟩

/-! ## What stands in front of them -/

theorem Simple.FailsCommitted.endsBefore {input : Text} (h : FailsCommitted input)
    (simple : Simple) : simple.EndsBefore input := by
  obtain ⟨rest, rfl⟩ := List.head?_eq_some_iff.mp h.1
  intro name _
  exact ⟨Ident.stops_cons.mpr (by decide), by simp⟩

/-- The start of a text stays one if something that fails stands in the place
of its end. -/
theorem Simple.FailsCommitted.exists_cons {front rest : Text} (h : FailsCommitted rest)
    (hfront : ∃ c start, front ++ ['*'] = c :: start ∧ isStart c = true) :
    ∃ c start, front ++ rest = c :: start ∧ isStart c = true := by
  obtain ⟨c, start, hstart, hc⟩ := hfront
  cases front with
  | nil =>
      obtain ⟨start, rfl⟩ := List.head?_eq_some_iff.mp h.1
      exact ⟨':', start, rfl, by decide⟩
  | cons d front =>
      cases hstart
      exact ⟨_, _, rfl, hc⟩

/-- The last condition in front of a text is read if it is read in front of
another text that begins alike. -/
theorem Simple.EndsBefore.congr {simple : Simple} {first second : Text}
    (h : simple.EndsBefore first) (hhead : first.head? = second.head?) :
    simple.EndsBefore second := by
  unfold Simple.EndsBefore Ident.Stops at h ⊢
  rwa [← hhead]

theorem Compound.readTailWith_failsCommitted {input : Text}
    (h : Simple.FailsCommitted input) :
    ∃ fault, readTailWith Selector.readArgument input = .error fault := by
  obtain ⟨_, fault, hread, hcommitted⟩ := h
  rw [readTailWith_of_error hread, hcommitted]
  exact ⟨fault, rfl⟩

/-- A compound cannot be read if something that fails stands in the place of
its last condition. -/
theorem Compound.Spells.readTailWith_failsCommitted {compound : Compound}
    {text rest : Text} (h : Compound.Spells (compound ++ [.universal]) text)
    (hfails : Simple.FailsCommitted rest) :
    ∃ front, text = front ++ ['*'] ∧ ∃ fault,
      Compound.readTailWith Selector.readArgument (front ++ rest) =
        .error fault := by
  induction compound generalizing text with
  | nil =>
      cases h with
      | cons hsimple _ hrest =>
          cases hsimple
          cases hrest
          exact ⟨[], rfl, Compound.readTailWith_failsCommitted hfails⟩
  | cons simple compound ih =>
      rw [List.cons_append] at h
      cases h with
      | @cons _ _ first tail hsimple hjoint hrest =>
          obtain ⟨front, rfl, fault, hfault⟩ := ih hrest
          obtain ⟨c, start, hstart, hc⟩ := hrest.exists_cons (by simp)
          have hends : simple.EndsBefore (front ++ rest) ∧
              (front ++ rest).head? ≠ some '(' := by
            cases front with
            | nil =>
                rw [List.nil_append, hfails.1]
                exact ⟨hfails.endsBefore simple, by decide⟩
            | cons d front =>
                cases hstart
                refine ⟨hjoint.congr rfl, ?_⟩
                rintro ⟨⟩
                exact absurd hc (by decide)
          refine ⟨first ++ front, by simp, fault, ?_⟩
          rw [List.append_assoc,
            Compound.readTailWith_of_ok (hsimple.read hends.1 hends.2), hfault]
          rfl

theorem Compound.readWith_of_readTailWith_error {argument : ArgumentReader}
    {input : Text} {fault : Fault}
    (h : readTailWith argument input = .error fault) :
    readWith argument input = .error fault := by
  cases hsimple : Simple.readWith argument input with
  | ok found =>
      obtain ⟨simple, after⟩ := found
      rw [readTailWith_of_ok hsimple] at h
      rw [readWith, hsimple]
      exact h
  | error cause =>
      rw [readTailWith_of_error hsimple] at h
      rw [readWith, hsimple]
      split at h <;> cases h
      rfl

/-- Whether a rest is more than white space, and no further member of a list. -/
def Selector.IsLeftover (rest : Text) : Prop :=
  (∀ behind, Text.skipBlanks rest ≠ ',' :: behind) ∧
    ∃ c ∈ rest, Text.isSpace c = false

/-- A gap and the start of a compound are no end of a selector. -/
theorem Selector.isLeftover_append {combinator : Combinator} {gap : Text}
    (h : combinator.Spells gap) {c : Char} (hc : Simple.isStart c = true)
    {rest : Text} (hrest : ∃ d ∈ c :: rest, Text.isSpace d = false) :
    IsLeftover (gap ++ c :: rest) := by
  obtain ⟨hblank, _, _, _, hcomma⟩ := Simple.isStart_spec hc
  constructor
  · intro behind heq
    cases h with
    | descendant _ hblanks =>
        rw [skipBlanks_append_of_isStart hblanks hblank] at heq
        cases heq
        exact hcomma rfl
    | @marked _ mark front back hmark hfront hback =>
        have hmarkBlank : Text.isBlank mark = false := by
          cases combinator <;> cases hmark <;> decide
        rw [List.append_assoc, List.cons_append,
          skipBlanks_append_of_isStart hfront hmarkBlank] at heq
        cases heq
        cases combinator <;> cases hmark
  · obtain ⟨d, hmem, hspace⟩ := hrest
    exact ⟨d, List.mem_append_right _ hmem, hspace⟩

theorem Selector.Spells.isLeftover_of_failsCommitted {links : Selector}
    {compound : Compound} {text rest : Text}
    (h : Selector.Spells (links ++ [⟨compound ++ [.universal], .none⟩]) text)
    (hfails : Simple.FailsCommitted rest) :
    ∃ front, text = front ++ ['*'] ∧ ∀ first behind,
      Compound.readWith Selector.readArgument (front ++ rest) =
          .ok (first, behind) →
        Selector.IsLeftover
          (Selector.readLinksWith Selector.readArgument first behind).2 := by
  induction links generalizing text with
  | nil =>
      cases h with
      | last _ hcompound =>
          obtain ⟨front, htext, fault, hfault⟩ :=
            hcompound.readTailWith_failsCommitted hfails
          refine ⟨front, htext, fun first behind hread => ?_⟩
          rw [Compound.readWith_of_readTailWith_error hfault] at hread
          cases hread
      | cons _ _ _ _ hrest => exact absurd rfl hrest.ne_nil
  | cons link links ih =>
      rw [List.cons_append] at h
      generalize hlinks : links ++ [⟨compound ++ [.universal], .none⟩] = after at h
      cases h with
      | last => simp at hlinks
      | @cons first combinator _ text gap tail hne hcompound hgap hjoint hrest =>
          subst hlinks
          obtain ⟨front, rfl, hleftover⟩ := ih hrest
          obtain ⟨c, start, hstart, hc⟩ := hfails.exists_cons hrest.exists_cons
          have hgapne : gap ≠ [] := by
            obtain ⟨_, _, rfl, _⟩ := hgap.exists_cons
            simp
          have hread := Compound.readWith_of_readTailWith hne
            (hcompound.readTail (hjoint.append hgapne (front ++ rest))
              (hgap.delimits _))
          have hcombinator := Selector.combinator?_append hgap hc start
          rw [← hstart] at hcombinator
          refine ⟨text ++ (gap ++ front), by simp, ?_⟩
          rw [List.append_assoc, List.append_assoc, hread]
          rintro _ _ ⟨⟩
          cases hnext : Compound.readWith Selector.readArgument (front ++ rest) with
          | error fault =>
              rw [Selector.readLinksWith_of_error hcombinator hnext, hstart]
              apply Selector.isLeftover_append hgap hc
              rw [← hstart]
              exact ⟨':', List.mem_append_right _
                (List.mem_of_mem_head? hfails.1), by decide⟩
          | ok found =>
              obtain ⟨next, behind⟩ := found
              rw [Selector.readLinksWith_of_ok hcombinator hnext]
              exact hleftover next behind hnext

/-! ## The last condition stays the last -/

theorem Compound.asRead_append (first second : Compound) :
    Compound.asRead (first ++ second) =
      Compound.asRead first ++ Compound.asRead second := by
  induction first with
  | nil => rfl
  | cons simple rest ih =>
      rw [List.cons_append, Compound.asRead, ih, Compound.asRead]
      rfl

theorem Compound.exists_absorb (first compound : Compound) :
    ∃ front, Compound.absorb first (compound ++ [.universal]) =
      front ++ [.universal] := by
  cases compound with
  | nil => exact ⟨_, rfl⟩
  | cons simple compound =>
      cases simple with
      | element name =>
          exact ⟨Compound.lengthen (' ' :: name) first ++ compound,
            (List.append_assoc _ _ _).symm⟩
      | _ =>
          exact ⟨_, (List.append_assoc (Compound.lengthen [' '] first)
            (_ :: compound) [.universal]).symm⟩

theorem Selector.exists_asRead (links : Selector) (compound : Compound) :
    ∃ front before,
      Selector.asRead (links ++ [⟨compound ++ [.universal], .none⟩]) =
        front ++ [⟨before ++ [.universal], .none⟩] := by
  induction links with
  | nil => exact ⟨[], Compound.asRead compound, by
      rw [List.nil_append, Selector.asRead, Compound.asRead_append]; rfl⟩
  | cons link links ih =>
      obtain ⟨first, combinator⟩ := link
      obtain ⟨front, before, hrest⟩ := ih
      have hlinks : Selector.asRead (⟨first, combinator⟩ ::
          (links ++ [⟨compound ++ [.universal], .none⟩])) =
          Selector.attach (Compound.asRead first) combinator
            (front ++ [⟨before ++ [.universal], .none⟩]) := by
        rw [← hrest]
        cases links <;> rfl
      rw [List.cons_append, hlinks]
      by_cases hsealed : Compound.IsSealed (Compound.asRead first)
      · rw [attach_of_sealed hsealed]
        exact ⟨_ :: front, before, rfl⟩
      · by_cases hdescendant : combinator = .descendant
        · subst hdescendant
          cases front with
          | nil =>
              obtain ⟨merged, hmerged⟩ :=
                Compound.exists_absorb (Compound.asRead first) before
              refine ⟨[], merged, ?_⟩
              rw [List.nil_append, attach_descendant hsealed, hmerged]
              rfl
          | cons next front =>
              rw [List.cons_append, attach_descendant hsealed]
              exact ⟨_ :: front, before, rfl⟩
        · rw [attach_marked hsealed hdescendant]
          exact ⟨_ :: front, before, rfl⟩

/-! ## Selectors that are not intact -/

theorem Compound.text_append (first second : Compound) :
    Compound.text (first ++ second) =
      Compound.text first ++ Compound.text second := by
  induction first with
  | nil => rfl
  | cons simple rest ih =>
      rw [List.cons_append, Compound.text, ih, ← List.append_assoc, Compound.text]

theorem Selector.text_append (first second : Selector) :
    Selector.text (first ++ second) =
      Selector.text first ++ Selector.text second := by
  induction first with
  | nil => rfl
  | cons link rest ih =>
      obtain ⟨compound, combinator⟩ := link
      rw [List.cons_append, Selector.text, ih, ← List.append_assoc, Selector.text]

/-- The first element of a list that lacks a property. -/
theorem exists_first_not {α : Type} {holds : α → Prop} {list : List α}
    (h : ¬ ∀ value ∈ list, holds value) :
    ∃ front value back, list = front ++ value :: back ∧
      (∀ value ∈ front, holds value) ∧ ¬ holds value := by
  induction list with
  | nil => exact absurd (by simp) h
  | cons value rest ih =>
      by_cases hvalue : holds value
      · obtain ⟨front, other, back, rfl, hfront, hother⟩ :=
          ih fun hrest => h (List.forall_mem_cons.mpr ⟨hvalue, hrest⟩)
        exact ⟨value :: front, other, back, rfl,
          List.forall_mem_cons.mpr ⟨hvalue, hfront⟩, hother⟩
      · exact ⟨[], value, rest, rfl, by simp, hvalue⟩

/-- A text is no list of selectors if something that fails stands in the place
of the last condition of a selector's text. -/
theorem Selector.listOfText_ne_ok_of_failsCommitted {links : Selector}
    {compound : Compound} {front rest : Text}
    (h : Selector.Spells (links ++ [⟨compound ++ [.universal], .none⟩])
      (front ++ ['*']))
    (hfails : Simple.FailsCommitted rest) (members : List Selector) :
    listOfText (front ++ rest) ≠ .ok members := by
  intro hread
  obtain ⟨front', hfront, hleftover⟩ := h.isLeftover_of_failsCommitted hfails
  obtain rfl := List.append_cancel_right hfront
  obtain ⟨c, start, hstart, hc⟩ := hfails.exists_cons h.exists_cons
  have hskip : Text.skipBlanks (front ++ rest) = front ++ rest := by
    rw [hstart, Text.skipBlanks_cons_of_not_isBlank (Simple.isStart_spec hc).1]
  rw [listOfText, readList, readListWith, hskip, readWith] at hread
  cases hcompound : Compound.readWith readArgument (front ++ rest) with
  | error fault =>
      rw [hcompound] at hread
      cases hread
  | ok found =>
      obtain ⟨first, behind⟩ := found
      obtain ⟨hcomma, d, hmem, hspace⟩ := hleftover first behind hcompound
      have htrim : Text.trim (readLinksWith readArgument first behind).2 ≠ [] := by
        intro htrim
        rw [Text.trim_eq_nil_iff.mp htrim d hmem] at hspace
        cases hspace
      rw [hcompound] at hread
      simp only [Except.map, readMembersWith_of_no_comma hcomma, whole, htrim,
        if_false] at hread
      cases hread

/-- What a selector is in front of a condition. -/
theorem Selector.Assembled.cut {links behind : Selector}
    {conditions others : Compound} {simple : Simple} {combinator : Combinator}
    (h : Assembled Simple.IsSpelled
      (links ++ ⟨conditions ++ simple :: others, combinator⟩ :: behind)) :
    Assembled Simple.IsSpelled
      (links ++ [⟨conditions ++ [.universal], .none⟩]) := by
  obtain ⟨hlinks, hrest⟩ := (assembled_append (by simp)).mp h
  have hjoined := hrest.joined _ (List.mem_cons_self ..)
  have hpieces := hrest.pieces _ (List.mem_cons_self ..)
  rw [List.forall_mem_append] at hpieces
  refine (assembled_append (by simp)).mpr ⟨hlinks, assembled_singleton ?_ ?_⟩
  · by_cases hne : conditions = []
    · rw [hne]
      trivial
    · exact (hjoined.of_append hne).append (by simp [Simple.isNamedElement])
  · exact List.forall_mem_append.mpr
      ⟨hpieces.1, List.forall_mem_singleton.mpr ⟨_, .universal⟩⟩

/-- With plain attributes, the printed text of a selector that is not intact is
no list of selectors at all. -/
theorem Selector.listOfText_text_ne_ok {selector : Selector}
    (h : Assembled Simple.IsSpelled selector)
    (hplain : HasPlainAttributes selector) (hbroken : ¬ Intact selector)
    (members : List Selector) : listOfText (text selector) ≠ .ok members := by
  rw [HasPlainAttributes, everywhere_iff] at hplain
  rw [intact_iff] at hbroken
  obtain ⟨links, ⟨compound, combinator⟩, behind, rfl, hlinks, hlink⟩ :=
    exists_first_not hbroken
  obtain ⟨conditions, simple, others, rfl, hconditions, hsimple⟩ :=
    exists_first_not hlink
  -- What is printed behind the condition that is not intact leaves it open.
  have hopens : ∀ link ∈ links ++ ⟨conditions ++ simple :: others, combinator⟩ ::
      behind, ∀ simple ∈ link.compound, simple.IntactOrOpen := by
    intro link hlink simple hsimple
    obtain ⟨text, hspells⟩ := h.pieces link hlink simple hsimple
    exact hspells.intactOrOpen (hplain link hlink simple hsimple)
  have hmem : ⟨conditions ++ simple :: others, combinator⟩ ∈
      links ++ ⟨conditions ++ simple :: others, combinator⟩ :: behind := by simp
  obtain ⟨count, hothers, _⟩ := Compound.exists_opensGroups
    fun other (hother : other ∈ others) => hopens _ hmem other (by simp [hother])
  obtain ⟨count', hbehind, _⟩ := exists_opensGroups
    fun link (hlink : link ∈ behind) => hopens link (by simp [hlink])
  obtain ⟨text, hspells⟩ := h.pieces _ hmem simple (by simp)
  have hfails := hspells.failsCommitted (hplain _ hmem simple (by simp)) hsimple
    (hothers.append (combinator.keepsStack_text.outside.opensGroups.append hbehind))
  -- In front of it everything is intact, so it is printed as it is read.
  have hintact : Intact (links ++ [⟨conditions ++ [.universal], .none⟩]) := by
    rw [intact_iff, List.forall_mem_append, List.forall_mem_singleton,
      List.forall_mem_append, List.forall_mem_singleton]
    exact ⟨hlinks, hconditions, trivial, by simp [Simple.members]⟩
  have hprefix := (h.cut.printable hintact).spells
  obtain ⟨front, before, hread⟩ := exists_asRead links conditions
  have htext : Selector.text (links ++ [⟨conditions ++ [.universal], .none⟩]) =
      (Selector.text links ++ Compound.text conditions) ++ ['*'] := by
    simp [text_append, Selector.text, Compound.text_append, Compound.text,
      Simple.text, Combinator.text]
  rw [hread, htext] at hprefix
  have hwhole : Selector.text
      (links ++ ⟨conditions ++ simple :: others, combinator⟩ :: behind) =
      (Selector.text links ++ Compound.text conditions) ++ (simple.text ++
        (Compound.text others ++ (combinator.text ++ Selector.text behind))) := by
    simp [text_append, Selector.text, Compound.text_append, Compound.text]
  rw [hwhole]
  exact listOfText_ne_ok_of_failsCommitted hprefix hfails members

end Cascade
