import Cascade.Naming.Draft
import Cascade.Naming.Symbols
import Cascade.Selector.Equality
import Cascade.Selector.Printer

/-!
# Finished selectors

The effects on a whole selector become one compound in front of it: the element
that raises it, then the id of the document's root, and nothing when neither
applies.
-/

namespace Cascade

/-- A selector built by the naming rules, with the tally kept on the way and the
body it is written for. -/
structure NamedSelector where
  selector : Selector
  tally : Tally
  body : Text
  deriving DecidableEq

namespace NamedSelector

def text (named : NamedSelector) : Text :=
  Selector.text named.selector

def specificity (named : NamedSelector) : Specificity :=
  named.tally.specificity

end NamedSelector

def boostElement : Text := "html".toList

namespace Draft

def scopeCompound (draft : Draft) (rootId : Text) :
    Except NamingError Compound :=
  let boost : Compound :=
    if draft.scope.emitsBoost then [.element boostElement] else []
  if draft.scope.rooted then
    (escaped rootId).map fun text => boost ++ [.id text]
  else .ok boost

/-- The scope compound, if it holds anything, in front of the links. -/
def scopedLinks (draft : Draft) (scope : Compound) : Selector :=
  if scope.isEmpty then draft.links else ⟨scope, .descendant⟩ :: draft.links

def finish (draft : Draft) (rootId body : Text) :
    Except NamingError NamedSelector :=
  (draft.scopeCompound rootId).map fun scope =>
    { selector := draft.scopedLinks scope
      tally := draft.tally.countCompound scope
      body := body }

end Draft

end Cascade
