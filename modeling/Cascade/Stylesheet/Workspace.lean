import Cascade.Stylesheet.Compile

/-!
# A workspace

A workspace holds a table of symbols, a stylesheet that grows, and a snapshot of
the table under which single declarations are tried out.  Later changes of the
table do not reach the snapshot.  A command that fails changes nothing.
-/

namespace Cascade

structure Workspace where
  table : SymbolTable
  snapshot : SymbolTable
  sheet : Stylesheet

/-- What a workspace can be told.  Kinds of symbols are given by name. -/
inductive Command where
  | symbol (kind : Text)
  | setSymbol (kind symbol : Text)
  | resetSymbol (kind : Text)
  | resetAll
  | save
  | restore
  | isInitial
  | takeSnapshot
  | snapshotSymbols
  | tryOut (declaration : Declaration)
  | add (item : Item)
  | clear
  | compile

inductive Reply where
  | done
  | text (text : Text)
  | texts (texts : List Text)
  | flag (flag : Bool)
  | count (count : Nat)
  | rules (rules : List Rule)

namespace Workspace

def initial : Workspace where
  table := .initial
  snapshot := .initial
  sheet := []

def withTable (workspace : Workspace) (table : SymbolTable) :
    Reply × Workspace :=
  (.done, { workspace with table := table })

def step (workspace : Workspace) :
    Command → Except NamingError (Reply × Workspace)
  | .symbol kind =>
      (SymbolKind.ofName kind).map fun kind =>
        (.text (workspace.table.get kind), workspace)
  | .setSymbol kind symbol =>
      (workspace.table.setByName kind symbol).map workspace.withTable
  | .resetSymbol kind =>
      (SymbolKind.ofName kind).map fun kind =>
        workspace.withTable (workspace.table.reset kind)
  | .resetAll => .ok (workspace.withTable workspace.table.resetAll)
  | .save => .ok (workspace.withTable workspace.table.save)
  | .restore => .ok (workspace.withTable workspace.table.restore)
  | .isInitial =>
      .ok (.flag (decide (workspace.table = .initial)), workspace)
  | .takeSnapshot =>
      .ok (.done, { workspace with snapshot := workspace.table })
  | .snapshotSymbols =>
      .ok (.texts workspace.snapshot.current.toList, workspace)
  | .tryOut declaration =>
      (declaration.rules workspace.snapshot).map fun rules =>
        (.rules rules, workspace)
  | .add item =>
      let sheet := workspace.sheet ++ [item]
      .ok (.count sheet.length, { workspace with sheet := sheet })
  | .clear => .ok (.done, { workspace with sheet := [] })
  | .compile =>
      (workspace.sheet.compile workspace.table).map fun rules =>
        (.text (Rule.renderAll rules), workspace)

/-- The answer to one command and the workspace afterwards, which is the same
one after an error. -/
def answer (workspace : Workspace) (command : Command) :
    Except NamingError Reply × Workspace :=
  match workspace.step command with
  | .ok (reply, next) => (.ok reply, next)
  | .error cause => (.error cause, workspace)

end Workspace

end Cascade
