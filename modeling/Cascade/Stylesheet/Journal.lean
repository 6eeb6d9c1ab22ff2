import Cascade.Stylesheet.Compile

/-!
# The journal of a compilation

While a stylesheet is compiled, each node with a body is noted as soon as its
selectors are finished, the targets of a policy included; a policy without
targets is noted, and so is the end of a compilation that succeeds.  What was
noted before an error stays.
-/

namespace Cascade

inductive Origin where
  | naming
  | stylesheet
  deriving DecidableEq

inductive Record where
  | rule (selectors declaration : Text)
  | emptyPolicy (name : Text)
  | compiled (rules items : Nat)
  deriving DecidableEq

namespace Record

def origin : Record → Origin
  | .rule _ _ => .naming
  | .emptyPolicy _ => .naming
  | .compiled _ _ => .stylesheet

def message : Record → Text
  | .rule selectors declaration =>
      "rule `".toList ++ selectors ++ "` from ".toList ++ declaration
  | .emptyPolicy name => "policy `".toList ++ name ++ "` has no targets".toList
  | .compiled rules items =>
      "compiled ".toList ++ Nat.toDigits 10 rules ++ " rules from ".toList ++
        Nat.toDigits 10 items ++ " items".toList

def line (label : Origin → Text) (record : Record) : Text :=
  "[DEBUG] ".toList ++ label record.origin ++ ": ".toList ++ record.message ++
    ['\n']

end Record

def Visit.record? (visit : Visit) : Option Record :=
  visit.rule?.map fun rule =>
    .rule rule.selectorText visit.declaration.display

namespace Item

/-- What is noted besides the visits of an item. -/
def closing (item : Item) (trace : Trace) : List Record :=
  match item, trace.failure with
  | .ofPolicy policy, none =>
      if (policy.ruleOf trace.visits).isNone then [.emptyPolicy policy.name]
      else []
  | _, _ => []

def records (symbols : Symbols) (item : Item) : List Record :=
  let trace := item.trace symbols
  trace.visits.filterMap Visit.record? ++ item.closing trace

end Item

namespace Stylesheet

/-- What is noted item by item, up to the first error. -/
def itemRecords (symbols : Symbols) : Stylesheet → List Record
  | [] => []
  | item :: rest =>
      item.records symbols ++
        if (item.trace symbols).failure.isSome then []
        else itemRecords symbols rest

def journal (table : SymbolTable) (sheet : Stylesheet) : List Record :=
  itemRecords table.current sheet ++
    match sheet.compile table with
    | .ok rules => [.compiled rules.length sheet.length]
    | .error _ => []

def journalText (label : Origin → Text) (table : SymbolTable)
    (sheet : Stylesheet) : Text :=
  (sheet.journal table).flatMap (Record.line label)

end Stylesheet

end Cascade
