import Cascade.Naming.Draft
import Cascade.Selector.Whole

/-!
# Fragments

A fragment is selector text inside a declaration tree.  Opened by the parent
reference it continues the current element: an identifier right behind the
reference lengthens the element's last class, and every other condition is added
to the element.  Any other fragment is nested below the current element.  What
follows the fragment's first compound is appended as it is.
-/

namespace Cascade.Draft

/-- Lengthens the last class of the current element.  The suffix is written
text, so its escapes are in place already. -/
def extendClass (draft : Draft) (suffix : Text) : Except NamingError Draft :=
  match draft.links.getLast?.bind fun last => last.compound.getLast? with
  | some (.className name) =>
      .ok { draft with
        links := draft.links.mapLast fun last =>
          { last with
            compound := last.compound.dropLast ++ [.className (name ++ suffix)] } }
  | _ => .error (draft.misplaced .suffixWithoutClass)

def appendConditions (draft : Draft) (conditions : Compound)
    (combinator : Combinator) : Draft :=
  { draft with
    links := draft.links.mapLast fun last =>
      ⟨last.compound ++ conditions, combinator⟩
    tally := draft.tally.countCompound conditions }

/-- The conditions behind the parent reference, with the suffix that an
identifier right behind it stands for. -/
def splitSuffix : Compound → Option Text × Compound
  | .element suffix :: conditions => (some suffix, conditions)
  | conditions => (none, conditions)

/-- Continues the current element with a compound that holds a parent
reference. -/
def glue (draft : Draft) (first : Link) : Except NamingError Draft :=
  if draft.links.isEmpty then .error (draft.misplaced .parentWithoutElement)
  else
    match first.compound with
    | .parent :: behind =>
        if Compound.hasParent behind then
          .error (draft.misplaced .parentRepeated)
        else
          let (suffix, conditions) := splitSuffix behind
          match suffix.elim (.ok draft) draft.extendClass with
          | .error cause => .error cause
          | .ok extended =>
              if conditions.any Simple.isElement then
                .error (draft.misplaced .elementBehindParent)
              else .ok (extended.appendConditions conditions first.combinator)
    | _ => .error (draft.misplaced .parentBehindCondition)

def nest (draft : Draft) (first : Link) : Except NamingError Draft :=
  if Compound.hasMisplacedElement first.compound then
    .error (draft.misplaced .elementBehindCondition)
  else
    .ok { draft with
      links := (draft.links.push .descendant first.compound).mapLast fun last =>
        { last with combinator := first.combinator }
      tally := draft.tally.countCompound first.compound }

def appendLinks (draft : Draft) (rest : Selector) : Draft :=
  { draft with
    links := draft.links ++ rest
    tally := draft.tally.countSelector rest
    scope := { draft.scope with raw := true }
    pristine := false }

def addSelector (draft : Draft) : Selector → Except NamingError Draft
  | [] => .ok draft
  | first :: rest =>
      if rest.any fun link => Compound.hasParent link.compound then
        .error (draft.misplaced .parentBehindCombinator)
      else if rest.any fun link => Compound.hasMisplacedElement link.compound then
        .error (draft.misplaced .elementBehindCondition)
      else
        (if Compound.hasParent first.compound then draft.glue first
          else draft.nest first).map fun joined => joined.appendLinks rest

def addFragment (draft : Draft) (fragment : Text) : Except NamingError Draft :=
  match Selector.ofText fragment with
  | .ok selector => draft.addSelector selector
  | .error cause => .error (.badFragment cause)

end Cascade.Draft
