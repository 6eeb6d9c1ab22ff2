import Cascade.Selector.Argument
import Cascade.Selector.Weight

/-!
# A whole text as a selector

Readers stop where nothing more can be taken in.  A text is a selector, or a
list of selectors, if only white space is left there.
-/

namespace Cascade.Selector

/-- What was read, provided that only white space is left. -/
def whole {α : Type} (ending : Ending) (found : Except Fault (α × Text)) :
    Except Malformed α :=
  match found with
  | .error fault => .error (.fault fault)
  | .ok (value, rest) =>
      if Text.trim rest = [] then .ok value
      else .error (.leftover ending rest)

/-- The selector that a text is, white space at its edges aside. -/
def ofText (source : Text) : Except Malformed Selector :=
  whole .selector (read (Text.trim source))

def listOfText (source : Text) : Except Malformed (List Selector) :=
  whole .selectorList (readList source)

def specificities (source : Text) : Except Malformed (List Specificity) :=
  (listOfText source).map fun selectors =>
    selectors.map Selector.specificity

end Cascade.Selector
