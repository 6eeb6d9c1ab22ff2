import Cascade.Naming.Walk
import Cascade.Stylesheet.Rule

/-!
# Compiling a stylesheet

A declaration gives one rule for each of its nodes that carry a body.  A policy
gives a single rule for the leaves of its targets, whatever bodies they carry,
and none if it has no targets.  A stylesheet is compiled item by item, and either
every rule is had or none.
-/

namespace Cascade

namespace Visit

def rule? (visit : Visit) : Option Rule :=
  visit.declaration.body.map fun body => ⟨visit.selectors, body⟩

def leaves (visit : Visit) : List NamedSelector :=
  if visit.declaration.isLeaf then visit.selectors else []

end Visit

def Visit.rules (visits : List Visit) : List Rule :=
  visits.filterMap Visit.rule?

def Visit.allLeaves (visits : List Visit) : List NamedSelector :=
  visits.flatMap Visit.leaves

namespace Declaration

/-- One rule for each node that carries a body, in pre-order. -/
def rules (table : SymbolTable) (declaration : Declaration) :
    Except NamingError (List Rule) :=
  (walk table.current [.empty] declaration).result.map Visit.rules

def leaves (table : SymbolTable) (declaration : Declaration) :
    Except NamingError (List NamedSelector) :=
  (walk table.current [.empty] declaration).result.map Visit.allLeaves

end Declaration

/-- A body given to the leaves of some declarations. -/
structure Policy where
  name : Text
  body : Text
  targets : List Declaration

namespace Policy

def trace (symbols : Symbols) (policy : Policy) : Trace :=
  Declaration.walkAll symbols [.empty] policy.targets

/-- The rule for what a policy visited, if it visited any leaf. -/
def ruleOf (policy : Policy) (visits : List Visit) : Option Rule :=
  match Visit.allLeaves visits with
  | [] => none
  | first :: rest => some (Rule.group (first :: rest) policy.body)

def rule (table : SymbolTable) (policy : Policy) :
    Except NamingError (Option Rule) :=
  (policy.trace table.current).result.map policy.ruleOf

end Policy

inductive Item where
  | ofDeclaration (declaration : Declaration)
  | ofPolicy (policy : Policy)

namespace Item

def trace (symbols : Symbols) : Item → Trace
  | .ofDeclaration declaration => declaration.walk symbols [.empty]
  | .ofPolicy policy => policy.trace symbols

def rulesOf (item : Item) (visits : List Visit) : List Rule :=
  match item with
  | .ofDeclaration _ => Visit.rules visits
  | .ofPolicy policy => (policy.ruleOf visits).toList

def rules (symbols : Symbols) (item : Item) : Except NamingError (List Rule) :=
  (item.trace symbols).result.map item.rulesOf

end Item

abbrev Stylesheet := List Item

namespace Stylesheet

/-- The rules of every item, or the first error. -/
def compile (table : SymbolTable) (sheet : Stylesheet) :
    Except NamingError (List Rule) :=
  (sheet.mapM (Item.rules table.current)).map List.flatten

end Stylesheet

end Cascade
