import Cascade.Naming.Error

/-!
# Symbols

Every kind of name carries a symbol that marks it, and one more symbol is the id
of the document's root.  A table holds the symbols in force and a saved
baseline to which they can be returned.
-/

namespace Cascade

inductive SymbolKind where
  | component
  | part
  | option
  | tweak
  | location
  | rootId
  deriving DecidableEq

namespace SymbolKind

/-- Every kind, in the order in which symbols are listed. -/
def all : List SymbolKind :=
  [.component, .part, .option, .tweak, .location, .rootId]

def name : SymbolKind → Text
  | .component => "component".toList
  | .part => "part".toList
  | .option => "option".toList
  | .tweak => "tweak".toList
  | .location => "location".toList
  | .rootId => "root-id".toList

def spellings : SymbolKind → List Text
  | .rootId => ["root-id".toList, "root_id".toList, "root".toList]
  | kind => [kind.name]

def builtin : SymbolKind → Text
  | .component => []
  | .part => ['.']
  | .option => ['-', '-']
  | .tweak => ['+']
  | .location => ['@']
  | .rootId => "app".toList

/-- The kind with a given name, whatever the case of its letters and the white
space around it. -/
def ofName (name : Text) : Except NamingError SymbolKind :=
  match all.find? fun kind =>
      Text.isKeyword kind.spellings (Text.trim name) with
  | some kind => .ok kind
  | none => .error (.unknownKind name)

end SymbolKind

structure Symbols where
  component : Text
  part : Text
  option : Text
  tweak : Text
  location : Text
  rootId : Text
  deriving DecidableEq

namespace Symbols

def builtin : Symbols where
  component := SymbolKind.component.builtin
  part := SymbolKind.part.builtin
  option := SymbolKind.option.builtin
  tweak := SymbolKind.tweak.builtin
  location := SymbolKind.location.builtin
  rootId := SymbolKind.rootId.builtin

def get (symbols : Symbols) : SymbolKind → Text
  | .component => symbols.component
  | .part => symbols.part
  | .option => symbols.option
  | .tweak => symbols.tweak
  | .location => symbols.location
  | .rootId => symbols.rootId

def set (symbols : Symbols) (kind : SymbolKind) (symbol : Text) : Symbols :=
  match kind with
  | .component => { symbols with component := symbol }
  | .part => { symbols with part := symbol }
  | .option => { symbols with option := symbol }
  | .tweak => { symbols with tweak := symbol }
  | .location => { symbols with location := symbol }
  | .rootId => { symbols with rootId := symbol }

def toList (symbols : Symbols) : List Text :=
  SymbolKind.all.map symbols.get

@[simp]
theorem get_builtin (kind : SymbolKind) : builtin.get kind = kind.builtin := by
  cases kind <;> rfl

@[simp]
theorem get_set_self (symbols : Symbols) (kind : SymbolKind) (symbol : Text) :
    (symbols.set kind symbol).get kind = symbol := by
  cases kind <;> rfl

theorem get_set_of_ne (symbols : Symbols) {kind other : SymbolKind}
    (symbol : Text) (h : other ≠ kind) :
    (symbols.set kind symbol).get other = symbols.get other := by
  cases kind <;> cases other <;> first | rfl | exact absurd rfl h

end Symbols

/-- The symbols in force, and those to return to. -/
structure SymbolTable where
  current : Symbols
  baseline : Symbols
  deriving DecidableEq

namespace SymbolTable

def initial : SymbolTable := ⟨.builtin, .builtin⟩

def get (table : SymbolTable) (kind : SymbolKind) : Text :=
  table.current.get kind

def set (table : SymbolTable) (kind : SymbolKind) (symbol : Text) :
    SymbolTable :=
  { table with current := table.current.set kind symbol }

def setByName (table : SymbolTable) (name symbol : Text) :
    Except NamingError SymbolTable :=
  (SymbolKind.ofName name).map fun kind => table.set kind symbol

def reset (table : SymbolTable) (kind : SymbolKind) : SymbolTable :=
  table.set kind kind.builtin

/-- Returns every kind to its built-in symbol and forgets the saved ones. -/
def resetAll (_ : SymbolTable) : SymbolTable := initial

def save (table : SymbolTable) : SymbolTable :=
  { table with baseline := table.current }

def restore (table : SymbolTable) : SymbolTable :=
  { table with current := table.baseline }

end SymbolTable

end Cascade
