import Cascade.Proofs.Ident.Name
import Cascade.Proofs.Text.Balanced
import Cascade.Proofs.Text.Trim
import Cascade.Selector.Reader.Simple

/-!
# The grammar of selectors

A selector can be written in several ways: blanks may surround combinators and
commas, white space the content of brackets, and some pseudo-elements may carry
a single colon.  `Spells` relates a selector to its texts without a reader.
Two pieces may stand side by side if the second does not lengthen the name with
which the first one ends.
-/

namespace Cascade

/-- A text that lengthens no name in front of it. -/
def Ident.Stops (rest : Text) : Prop :=
  ∀ c ∈ rest.head?, c ≠ '\\' ∧ isNameChar c = false

def Simple.lastName? : Simple → Option Text
  | .element name => some name
  | .className name => some name
  | .id name => some name
  | .pseudoClass name => some name
  | .pseudoElement name => some name
  | _ => none

/-- Whether a simple selector ends where `rest` begins.  A space stays outside
a closed name only. -/
def Simple.EndsBefore (simple : Simple) (rest : Text) : Prop :=
  ∀ name ∈ simple.lastName?, Ident.Stops rest ∧
    (rest.head? = some ' ' → Ident.IsClosed name)

def Compound.EndsBefore (compound : Compound) (rest : Text) : Prop :=
  ∀ simple ∈ compound.getLast?, simple.EndsBefore rest

def Selector.EndsBefore (selector : Selector) (rest : Text) : Prop :=
  ∀ link ∈ selector.getLast?, Compound.EndsBefore link.compound rest

def Combinator.mark? : Combinator → Option Char
  | .child => some '>'
  | .adjacent => some '+'
  | .general => some '~'
  | _ => .none

/-- The gap between two compounds. -/
inductive Combinator.Spells : Combinator → Text → Prop
  | descendant {blanks : Text} : blanks ≠ [] → Text.IsBlank blanks →
      Combinator.Spells .descendant blanks
  | marked {combinator : Combinator} {mark : Char} {front back : Text} :
      combinator.mark? = some mark → Text.IsBlank front → Text.IsBlank back →
      Combinator.Spells combinator (front ++ mark :: back)

mutual

/-- The texts of a simple selector. -/
inductive Simple.Spells : Simple → Text → Prop
  | element {name : Text} : Ident.IsName name →
      Simple.Spells (.element name) name
  | className {name : Text} : Ident.IsName name →
      Simple.Spells (.className name) ('.' :: name)
  | id {name : Text} : Ident.IsName name → Simple.Spells (.id name) ('#' :: name)
  | universal : Simple.Spells .universal ['*']
  | pseudoClass {name : Text} : Ident.IsName name →
      Text.isKeyword Simple.singleColonElements name = false →
      Simple.Spells (.pseudoClass name) (':' :: name)
  | pseudoElement {name : Text} : Ident.IsName name →
      Simple.Spells (.pseudoElement name) (':' :: ':' :: name)
  /-- A pseudo-element written with a single colon. -/
  | singleColon {name : Text} : Ident.IsName name →
      Text.isKeyword Simple.singleColonElements name = true →
      Simple.Spells (.pseudoElement name) (':' :: name)
  | parent : Simple.Spells .parent ['&']
  | brackets {content name value : Text} : ']' ∉ content →
      Simple.ofBrackets content = .attribute name value →
      Simple.Spells (.attribute name value) ('[' :: content ++ [']'])
  | selectorFunction {name content : Text} {members : List Selector} :
      Ident.IsName name → Text.isKeyword Simple.listFunctions name = true →
      Enclosed.Balanced content → Selector.SpellsList members content →
      Simple.Spells (.selectorFunction name members)
        (':' :: name ++ '(' :: content ++ [')'])
  | textFunction {name content argument : Text} :
      Ident.IsName name → Text.isKeyword Simple.listFunctions name = false →
      Enclosed.Balanced content → Text.trim content = argument →
      Simple.Spells (.textFunction name argument)
        (':' :: name ++ '(' :: content ++ [')'])

inductive Compound.Spells : Compound → Text → Prop
  | nil : Compound.Spells [] []
  | cons {simple : Simple} {rest : Compound} {text tail : Text} :
      Simple.Spells simple text → simple.EndsBefore tail →
      Compound.Spells rest tail →
      Compound.Spells (simple :: rest) (text ++ tail)

inductive Selector.Spells : Selector → Text → Prop
  | last {compound : Compound} {text : Text} : compound ≠ [] →
      Compound.Spells compound text →
      Selector.Spells [⟨compound, .none⟩] text
  | cons {compound : Compound} {combinator : Combinator} {rest : Selector}
      {text gap tail : Text} : compound ≠ [] →
      Compound.Spells compound text → combinator.Spells gap →
      Compound.EndsBefore compound gap → Selector.Spells rest tail →
      Selector.Spells (⟨compound, combinator⟩ :: rest) (text ++ (gap ++ tail))

inductive Selector.SpellsList : List Selector → Text → Prop
  | last {selector : Selector} {front text back : Text} :
      Text.IsBlank front → Selector.Spells selector text →
      Selector.EndsBefore selector back → Text.IsBlank back →
      Selector.SpellsList [selector] (front ++ (text ++ back))
  | cons {selector : Selector} {rest : List Selector}
      {front text back tail : Text} :
      Text.IsBlank front → Selector.Spells selector text →
      Selector.EndsBefore selector back → Text.IsBlank back →
      Selector.SpellsList rest tail →
      Selector.SpellsList (selector :: rest)
        (front ++ (text ++ (back ++ ',' :: tail)))

end

namespace Ident

@[simp]
theorem stops_nil : Stops [] := by
  intro c hc
  cases hc

theorem stops_cons {c : Char} {rest : Text} :
    Stops (c :: rest) ↔ c ≠ '\\' ∧ isNameChar c = false := by
  simp [Stops]

theorem Stops.append {first : Text} (h : Stops first) (hne : first ≠ [])
    (second : Text) : Stops (first ++ second) := by
  obtain ⟨c, rest, rfl⟩ := List.exists_cons_of_ne_nil hne
  exact h

theorem Stops.unit?_eq_none {rest : Text} (h : Stops rest) :
    unit? rest = none := by
  cases rest with
  | nil => rfl
  | cons c rest =>
      obtain ⟨hbackslash, hname⟩ := stops_cons.mp h
      simp [unit?, hbackslash, hname]

end Ident

/-! ## Where pieces end -/

@[simp]
theorem Simple.endsBefore_nil (simple : Simple) : simple.EndsBefore [] := by
  intro name _
  exact ⟨Ident.stops_nil, by simp⟩

/-- Where a simple selector ends is decided by one character. -/
theorem Simple.EndsBefore.append {simple : Simple} {first : Text}
    (h : simple.EndsBefore first) (hne : first ≠ []) (second : Text) :
    simple.EndsBefore (first ++ second) := by
  intro name hname
  obtain ⟨hstops, hclosed⟩ := h name hname
  refine ⟨hstops.append hne second, ?_⟩
  obtain ⟨c, rest, rfl⟩ := List.exists_cons_of_ne_nil hne
  exact hclosed

@[simp]
theorem Compound.endsBefore_singleton (simple : Simple) (rest : Text) :
    Compound.EndsBefore [simple] rest ↔ simple.EndsBefore rest := by
  simp [Compound.EndsBefore]

@[simp]
theorem Compound.endsBefore_cons_cons (simple next : Simple)
    (compound : Compound) (rest : Text) :
    Compound.EndsBefore (simple :: next :: compound) rest ↔
      Compound.EndsBefore (next :: compound) rest := by
  simp [Compound.EndsBefore]

@[simp]
theorem Selector.endsBefore_singleton (link : Link) (rest : Text) :
    Selector.EndsBefore [link] rest ↔
      Compound.EndsBefore link.compound rest := by
  simp [Selector.EndsBefore]

theorem Selector.endsBefore_cons {link : Link} {selector : Selector}
    {rest : Text} (h : selector ≠ []) :
    Selector.EndsBefore (link :: selector) rest ↔
      Selector.EndsBefore selector rest := by
  obtain ⟨next, selector, rfl⟩ := List.exists_cons_of_ne_nil h
  simp [Selector.EndsBefore]

/-! ## How pieces begin -/

/-- The characters by which every simple selector but a named element is
recognised. -/
def Simple.isMark (c : Char) : Bool :=
  c == '#' || c == '.' || c == ':' || c == '&' || c == '*' || c == '['

def Simple.isStart (c : Char) : Bool :=
  isMark c || c == '\\' || Ident.isNameChar c

theorem Simple.isMark_spec {c : Char} (h : isMark c = true) :
    c ≠ '\\' ∧ Ident.isNameChar c = false ∧ c ≠ ' ' := by
  simp only [isMark, Bool.or_eq_true, beq_iff_eq] at h
  rcases h with ((((rfl | rfl) | rfl) | rfl) | rfl) | rfl <;> decide

theorem Simple.isStart_spec {c : Char} (h : isStart c = true) :
    Text.isBlank c = false ∧ c ≠ '>' ∧ c ≠ '+' ∧ c ≠ '~' ∧ c ≠ ',' := by
  refine ⟨?_, ?_, ?_, ?_, ?_⟩
  · apply Bool.eq_false_iff.mpr
    intro hblank
    simp only [Text.isBlank, Bool.or_eq_true, beq_iff_eq] at hblank
    rcases hblank with ((rfl | rfl) | rfl) | rfl <;> revert h <;> decide
  all_goals
    rintro rfl
    revert h
    decide

/-- Everything but a named element starts with its mark. -/
theorem Simple.Spells.exists_mark {simple : Simple} {text : Text}
    (h : simple.Spells text) (hsimple : ∀ name, simple ≠ .element name) :
    ∃ c rest, text = c :: rest ∧ Simple.isMark c = true := by
  cases h with
  | element => exact absurd rfl (hsimple _)
  | _ => exact ⟨_, _, rfl, rfl⟩

theorem Simple.Spells.exists_cons {simple : Simple} {text : Text}
    (h : simple.Spells text) :
    ∃ c rest, text = c :: rest ∧ Simple.isStart c = true := by
  cases h with
  | element hname =>
      obtain ⟨c, rest, rfl, hc⟩ := hname.exists_cons
      refine ⟨c, rest, rfl, ?_⟩
      rcases hc with rfl | hc
      · decide
      · simp [Simple.isStart, hc]
  | _ => exact ⟨_, _, rfl, by decide⟩

theorem Compound.Spells.exists_cons {compound : Compound} {text : Text}
    (h : Compound.Spells compound text) (hne : compound ≠ []) :
    ∃ c rest, text = c :: rest ∧ Simple.isStart c = true := by
  cases h with
  | nil => exact absurd rfl hne
  | cons hsimple _ _ =>
      obtain ⟨c, rest, rfl, hc⟩ := hsimple.exists_cons
      exact ⟨c, _, rfl, hc⟩

/-- Every condition of a compound that has a text has one of its own. -/
theorem Compound.Spells.exists_of_mem {compound : Compound} {text : Text}
    (h : Compound.Spells compound text) {simple : Simple}
    (hsimple : simple ∈ compound) : ∃ text, simple.Spells text := by
  induction compound generalizing text with
  | nil => cases hsimple
  | cons first rest ih =>
      cases h with
      | cons hfirst _ hrest =>
          rcases List.mem_cons.mp hsimple with rfl | hsimple
          · exact ⟨_, hfirst⟩
          · exact ih hrest hsimple

theorem Selector.Spells.exists_cons {selector : Selector} {text : Text}
    (h : Selector.Spells selector text) :
    ∃ c rest, text = c :: rest ∧ Simple.isStart c = true := by
  cases h with
  | last hne hcompound => exact hcompound.exists_cons hne
  | cons hne hcompound _ _ _ =>
      obtain ⟨c, rest, rfl, hc⟩ := hcompound.exists_cons hne
      exact ⟨c, _, rfl, hc⟩

theorem Selector.Spells.ne_nil {selector : Selector} {text : Text}
    (h : Selector.Spells selector text) : selector ≠ [] := by
  cases h <;> simp

theorem Selector.SpellsList.ne_nil {members : List Selector} {text : Text}
    (h : Selector.SpellsList members text) : members ≠ [] := by
  cases h <;> simp

theorem Selector.SpellsList.exists_first {selector : Selector}
    {members : List Selector} {text : Text}
    (h : Selector.SpellsList (selector :: members) text) :
    ∃ front first rest, text = front ++ (first ++ rest) ∧
      Text.IsBlank front ∧ Selector.Spells selector first := by
  cases h with
  | last hfront hselector _ _ => exact ⟨_, _, _, rfl, hfront, hselector⟩
  | cons hfront hselector _ _ _ => exact ⟨_, _, _, rfl, hfront, hselector⟩

/-! ## What ends a compound -/

theorem Compound.endsBefore_append {simple : Simple} {compound : Compound}
    {tail rest : Text} (hcompound : Compound.Spells compound tail)
    (hsimple : simple.EndsBefore tail)
    (hends : EndsBefore (simple :: compound) rest) :
    simple.EndsBefore (tail ++ rest) := by
  cases compound with
  | nil =>
      cases hcompound
      exact (endsBefore_singleton simple rest).mp hends
  | cons next compound =>
      obtain ⟨c, tail, rfl, _⟩ := hcompound.exists_cons (by simp)
      exact hsimple.append (by simp) rest

theorem Compound.EndsBefore.tail {simple : Simple} {compound : Compound}
    {rest : Text} (hends : EndsBefore (simple :: compound) rest) :
    EndsBefore compound rest := by
  cases compound with
  | nil =>
      intro simple hsimple
      cases hsimple
  | cons next compound => exact (endsBefore_cons_cons simple next _ rest).mp hends

/-- White space that belongs to no name.  Blanks are such, and a few characters
that no grammar skips. -/
def Ident.isGap (c : Char) : Bool :=
  Text.isSpace c && !isNameChar c

theorem Ident.isGap_of_isBlank {c : Char} (h : Text.isBlank c = true) :
    isGap c = true := by
  simp only [Text.isBlank, Bool.or_eq_true, beq_iff_eq] at h
  rcases h with ((rfl | rfl) | rfl) | rfl <;> decide

theorem Ident.isGap_spec {c : Char} (h : isGap c = true) :
    Simple.isMark c = false ∧ c ≠ '\\' ∧ isNameChar c = false ∧ c ≠ '(' := by
  have hne (other : Char) (hother : isGap other = false) : c ≠ other := by
    rintro rfl
    rw [h] at hother
    cases hother
  refine ⟨?_, hne _ (by decide), by simp_all [isGap], hne _ (by decide)⟩
  simp only [Simple.isMark, Bool.or_eq_false_iff, beq_eq_false_iff_ne]
  refine ⟨⟨⟨⟨⟨?_, ?_⟩, ?_⟩, ?_⟩, ?_⟩, ?_⟩ <;> exact hne _ (by decide)

def Compound.Delimits (rest : Text) : Prop :=
  ∀ c ∈ rest.head?, Ident.isGap c = true ∨ c = ',' ∨ c = '>' ∨ c = '+' ∨ c = '~'

theorem Compound.Delimits.cons {c : Char} {rest : Text}
    (h : Delimits (c :: rest)) :
    Simple.isMark c = false ∧ c ≠ '\\' ∧ Ident.isNameChar c = false ∧
      c ≠ '(' := by
  have hc : Ident.isGap c = true ∨ c = ',' ∨ c = '>' ∨ c = '+' ∨ c = '~' :=
    h c rfl
  rcases hc with hgap | rfl | rfl | rfl | rfl
  · exact Ident.isGap_spec hgap
  all_goals decide

theorem Compound.Delimits.stops {rest : Text} (h : Delimits rest) :
    Ident.Stops rest := by
  cases rest with
  | nil => exact Ident.stops_nil
  | cons c rest => exact Ident.stops_cons.mpr ⟨h.cons.2.1, h.cons.2.2.1⟩

theorem Combinator.Spells.exists_cons {combinator : Combinator} {gap : Text}
    (h : combinator.Spells gap) :
    ∃ c rest, gap = c :: rest ∧
      (Text.isBlank c = true ∨ c = ',' ∨ c = '>' ∨ c = '+' ∨ c = '~') := by
  cases h with
  | descendant hne hblanks =>
      obtain ⟨c, rest, rfl⟩ := List.exists_cons_of_ne_nil hne
      exact ⟨c, rest, rfl, .inl (hblanks c (by simp))⟩
  | @marked _ mark front back hmark hfront _ =>
      cases front with
      | nil =>
          refine ⟨mark, back, rfl, .inr (.inr ?_)⟩
          cases combinator <;> cases hmark <;> decide
      | cons c front => exact ⟨c, _, rfl, .inl (hfront c (by simp))⟩

theorem Combinator.Spells.delimits {combinator : Combinator} {gap : Text}
    (h : combinator.Spells gap) (rest : Text) :
    Compound.Delimits (gap ++ rest) := by
  obtain ⟨c, tail, rfl, hc⟩ := h.exists_cons
  rintro _ ⟨⟩
  exact hc.imp_left Ident.isGap_of_isBlank

end Cascade
