import Cascade.Proofs.Ident.Name
import Cascade.Proofs.Selector.Spelling
import Cascade.Selector.Printer

/-!
# Shapes of selectors

Which trees can be printed and read back is a matter of their shape.  `Linked`
and `Joined` say that combinators stand between compounds and named elements in
front of them.  `WellFormed` asks in addition that every name is closed and every
argument and attribute prints as itself.

A tree that was read is not always well formed.  It is settled if no argument
lost an escaped space to trimming (`Intact`) and no open name stands in front of
a combinator (`Sealed`).
-/

namespace Cascade

def Simple.members : Simple → List Selector
  | .selectorFunction _ members => members
  | _ => []

def Simple.isNamedElement : Simple → Bool
  | .element _ => true
  | _ => false

/-- Combinators stand between compounds, and none behind the last. -/
def Selector.Linked : Selector → Prop
  | [] => False
  | [last] => last.combinator = .none
  | link :: next :: rest =>
      link.combinator ≠ .none ∧ Selector.Linked (next :: rest)

/-- No named element stands right behind a name. -/
def Compound.Joined : Compound → Prop
  | [] => False
  | [_] => True
  | simple :: next :: rest =>
      (simple.lastName?.isSome = true → next.isNamedElement = false) ∧
        Compound.Joined (next :: rest)

/-- Whether every link has a property, those inside of functions included. -/
inductive Selector.Everywhere (holds : Link → Prop) : Selector → Prop
  | intro {selector : Selector} : (∀ link ∈ selector, holds link) →
      (∀ link ∈ selector, ∀ simple ∈ link.compound,
        ∀ member ∈ simple.members, Selector.Everywhere holds member) →
      Selector.Everywhere holds selector

/-- A property of conditions holds everywhere if it holds of each condition and
everywhere in the members of each. -/
theorem Selector.everywhere_iff {holds : Simple → Prop} {selector : Selector} :
    Selector.Everywhere (fun link => ∀ simple ∈ link.compound, holds simple)
        selector ↔
      ∀ link ∈ selector, ∀ simple ∈ link.compound, holds simple ∧
        ∀ member ∈ simple.members, Selector.Everywhere
          (fun link => ∀ simple ∈ link.compound, holds simple) member := by
  constructor
  · rintro ⟨hsimples, hmembers⟩ link hlink simple hsimple
    exact ⟨hsimples link hlink simple hsimple, hmembers link hlink simple hsimple⟩
  · intro h
    exact .intro (fun link hlink simple hsimple => (h link hlink simple hsimple).1)
      fun link hlink simple hsimple => (h link hlink simple hsimple).2

/-! ## Well-formed selectors -/

/-- An attribute without a character that means something to the reader of
groups. -/
def Simple.HasPlainAttribute : Simple → Prop
  | .attribute name value => ∀ c ∈ name ++ value, Enclosed.Nesting.isPlain c = true
  | _ => True

/-- Whether the attributes of a selector, at every depth, hold no quote, no
parenthesis and no backslash. -/
def Selector.HasPlainAttributes (selector : Selector) : Prop :=
  Selector.Everywhere
    (fun link => ∀ simple ∈ link.compound, simple.HasPlainAttribute) selector

mutual

inductive Simple.WellFormed : Simple → Prop
  | element {name : Text} : Ident.IsClosed name →
      Simple.WellFormed (.element name)
  | className {name : Text} : Ident.IsClosed name →
      Simple.WellFormed (.className name)
  | id {name : Text} : Ident.IsClosed name → Simple.WellFormed (.id name)
  | universal : Simple.WellFormed .universal
  | pseudoClass {name : Text} : Ident.IsClosed name →
      Text.isKeyword Simple.singleColonElements name = false →
      Simple.WellFormed (.pseudoClass name)
  | pseudoElement {name : Text} : Ident.IsClosed name →
      Simple.WellFormed (.pseudoElement name)
  | parent : Simple.WellFormed .parent
  | brackets {name value : Text} :
      Text.trim name = name → Text.trim value = value →
      ']' ∉ name → ']' ∉ value → '=' ∉ name →
      Simple.WellFormed (.attribute name value)
  | selectorFunction {name : Text} {members : List Selector} :
      Ident.IsClosed name → Text.isKeyword Simple.listFunctions name = true →
      members ≠ [] → (∀ member ∈ members, Selector.WellFormed member) →
      (∀ member ∈ members, Selector.HasPlainAttributes member) →
      Simple.WellFormed (.selectorFunction name members)
  | textFunction {name argument : Text} :
      Ident.IsClosed name → Text.isKeyword Simple.listFunctions name = false →
      Text.trim argument = argument → Enclosed.Balanced argument →
      Simple.WellFormed (.textFunction name argument)

inductive Selector.WellFormed : Selector → Prop
  | intro {selector : Selector} : Selector.Linked selector →
      (∀ link ∈ selector, Compound.Joined link.compound) →
      (∀ link ∈ selector, ∀ simple ∈ link.compound, simple.WellFormed) →
      Selector.WellFormed selector

end

/-! ## Settled selectors -/

/-- A text argument that is still the content of a group. -/
def Simple.KeepsArgument : Simple → Prop
  | .textFunction _ argument => Enclosed.Balanced argument
  | _ => True

/-- Whether no text argument lost a part of an escape to trimming. -/
def Selector.Intact (selector : Selector) : Prop :=
  Selector.Everywhere
    (fun link => ∀ simple ∈ link.compound, simple.KeepsArgument) selector

/-- Whether a space may follow a compound without becoming part of it. -/
def Compound.IsSealed (compound : Compound) : Prop :=
  ∀ simple ∈ compound.getLast?, ∀ name ∈ simple.lastName?, Ident.IsClosed name

instance (compound : Compound) : Decidable (Compound.IsSealed compound) :=
  inferInstanceAs (Decidable (∀ simple ∈ compound.getLast?,
    ∀ name ∈ simple.lastName?, Ident.IsClosed name))

/-- Whether no open name stands in front of a combinator. -/
def Selector.Sealed (selector : Selector) : Prop :=
  Selector.Everywhere
    (fun link => link.combinator ≠ .none → Compound.IsSealed link.compound)
    selector

/-- Whether the printed text of a selector that was read is one of its texts. -/
def Selector.Settled (selector : Selector) : Prop :=
  Selector.Intact selector ∧ Selector.Sealed selector

/-! ## What printing and reading makes of a selector -/

def Simple.lengthen (more : Text) : Simple → Simple
  | .element name => .element (name ++ more)
  | .className name => .className (name ++ more)
  | .id name => .id (name ++ more)
  | .pseudoClass name => .pseudoClass (name ++ more)
  | .pseudoElement name => .pseudoElement (name ++ more)
  | simple => simple

def Compound.lengthen (more : Text) : Compound → Compound
  | [] => []
  | [last] => [last.lengthen more]
  | simple :: next :: rest => simple :: Compound.lengthen more (next :: rest)

/-- What two compounds with a space between them are read as if the first one
takes the space along. -/
def Compound.absorb (first : Compound) : Compound → Compound
  | .element name :: rest => Compound.lengthen (' ' :: name) first ++ rest
  | second => Compound.lengthen [' '] first ++ second

/-- What a compound, its combinator and the selector behind it are read as. -/
def Selector.attach (compound : Compound) (combinator : Combinator)
    (rest : Selector) : Selector :=
  if Compound.IsSealed compound then ⟨compound, combinator⟩ :: rest
  else
    match combinator, rest with
    | .descendant, ⟨next, behind⟩ :: rest =>
        ⟨Compound.absorb compound next, behind⟩ :: rest
    | combinator, rest =>
        ⟨Compound.lengthen [' '] compound, combinator⟩ :: rest

mutual

/-- What the printed text of a condition is read as: an open name takes along
the space of the combinator behind it. -/
def Simple.asRead : Simple → Simple
  | .selectorFunction name members =>
      .selectorFunction name (Selector.listAsRead members)
  | simple => simple

def Compound.asRead : Compound → Compound
  | [] => []
  | simple :: rest => simple.asRead :: Compound.asRead rest

/-- What the printed text of an intact selector is read as. -/
def Selector.asRead : Selector → Selector
  | [] => []
  | [⟨compound, combinator⟩] => [⟨Compound.asRead compound, combinator⟩]
  | ⟨compound, combinator⟩ :: next :: rest =>
      Selector.attach (Compound.asRead compound) combinator
        (Selector.asRead (next :: rest))

def Selector.listAsRead : List Selector → List Selector
  | [] => []
  | selector :: rest => Selector.asRead selector :: Selector.listAsRead rest

end

end Cascade
