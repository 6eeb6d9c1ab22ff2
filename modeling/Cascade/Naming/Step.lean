import Cascade.Naming.Fragment
import Cascade.Naming.Symbols
import Cascade.Naming.Declaration

/-!
# One declaration applied

Passing a declaration turns every draft into one draft per name, the drafts in
the outer place: `component(c1, c2) > option(o1, o2)` gives `c1 o1`, `c1 o2`,
`c2 o1`, `c2 o2`.  The first name that cannot be applied to its draft decides
the error.
-/

namespace Cascade

namespace Draft

def apply (symbols : Symbols) (kind : Kind) (name : Text) (draft : Draft) :
    Except NamingError Draft :=
  match kind with
  | .component => draft.openBlock (symbols.component ++ name)
  | .tweak =>
      { draft with scope := { draft.scope with rooted := true } }.openBlock
        (symbols.tweak ++ name)
  | .location => draft.openBlock (symbols.location ++ name)
  | .part => draft.openPart symbols.part name
  | .option => draft.addOption (symbols.option ++ name)
  | .raw => draft.addFragment name
  | .sibling => draft.repeatLast

end Draft

namespace Declaration

def extend (symbols : Symbols) (declaration : Declaration) (draft : Draft) :
    Except NamingError (List Draft) :=
  let entered := draft.enter declaration.display
  if declaration.choices.isEmpty then .error (entered.misplaced .noNames)
  else
    declaration.choices.mapM fun name =>
      entered.apply symbols declaration.kind name

/-- The drafts that all drafts become, in the order of the drafts. -/
def expand (symbols : Symbols) (declaration : Declaration)
    (drafts : List Draft) : Except NamingError (List Draft) :=
  (drafts.mapM (declaration.extend symbols)).map List.flatten

end Declaration

end Cascade
