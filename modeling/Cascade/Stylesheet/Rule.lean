import Cascade.Naming.Finish
import Cascade.Sheet.Body

/-!
# Rules and their layout

A rule is a group of selectors that share one body.  It is written with its
selectors on one line, each declaration of the body on a line of its own, and
the closing brace at the start of a line; rules are separated by an empty line.
-/

namespace Cascade

/-- Selectors that share one body. -/
structure Rule where
  selectors : List NamedSelector
  body : Text
  deriving DecidableEq

namespace Rule

/-- Selectors grouped under a body, which becomes the body of each. -/
def group (selectors : List NamedSelector) (body : Text) : Rule where
  selectors := selectors.map fun named => { named with body := body }
  body := body

def selectorText (rule : Rule) : Text :=
  List.intercalate [',', ' '] (rule.selectors.map NamedSelector.text)

def specificities (rule : Rule) : List Specificity :=
  rule.selectors.map NamedSelector.specificity

def declarationLine (declaration : Text) : Text :=
  ' ' :: ' ' :: declaration ++ [';', '\n']

def render (rule : Rule) : Text :=
  rule.selectorText ++ [' ', '{', '\n'] ++
    (Sheet.splitDeclarations rule.body).flatMap declarationLine ++
    ['}', '\n']

def renderAll (rules : List Rule) : Text :=
  List.intercalate ['\n'] (rules.map render)

end Rule

end Cascade
