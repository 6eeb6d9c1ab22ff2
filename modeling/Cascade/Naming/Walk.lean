import Cascade.Naming.Step
import Cascade.Naming.Finish

/-!
# Walking a declaration tree

The tree is walked in pre-order.  At a node with a body, and at a leaf, the
drafts are finished into selectors, and the node counts as visited.  A walk ends
at the first error; what it visited before stays, since it has been noted by
then.  `Trace.result` forgets this, and is what the answer of a walk amounts to.
-/

namespace Cascade

structure Visit where
  declaration : Declaration
  selectors : List NamedSelector

/-- The visits of a walk in order, and the error that ended it, if one did. -/
structure Trace where
  visits : List Visit
  failure : Option NamingError

namespace Trace

def empty : Trace := ⟨[], none⟩

def failed (cause : NamingError) : Trace := ⟨[], some cause⟩

/-- A walk continued by another one, unless it has failed. -/
def andThen (first second : Trace) : Trace :=
  match first.failure with
  | some cause => ⟨first.visits, some cause⟩
  | none => ⟨first.visits ++ second.visits, second.failure⟩

def result (trace : Trace) : Except NamingError (List Visit) :=
  match trace.failure with
  | some cause => .error cause
  | none => .ok trace.visits

@[simp]
theorem result_empty : empty.result = .ok [] := rfl

@[simp]
theorem result_failed (cause : NamingError) :
    (failed cause).result = .error cause := rfl

/-- The answer of a continued walk: the first error, or the visits of both. -/
theorem result_andThen (first second : Trace) :
    (first.andThen second).result =
      match first.result with
      | .error cause => .error cause
      | .ok visits => second.result.map (visits ++ ·) := by
  unfold andThen result
  cases first.failure <;> cases second.failure <;> rfl

end Trace

namespace Declaration

/-- Finishes the drafts of a node with a body, or of a leaf. -/
def visit (symbols : Symbols) (declaration : Declaration)
    (drafts : List Draft) : Trace :=
  if declaration.body.isSome || declaration.isLeaf then
    match drafts.mapM fun draft =>
        draft.finish symbols.rootId (declaration.body.getD []) with
    | .ok selectors => ⟨[⟨declaration, selectors⟩], none⟩
    | .error cause => .failed cause
  else .empty

mutual

def walk (symbols : Symbols) (drafts : List Draft) : Declaration → Trace
  | ⟨kind, names, body, children⟩ =>
      match expand symbols ⟨kind, names, body, children⟩ drafts with
      | .error cause => .failed cause
      | .ok expanded =>
          (visit symbols ⟨kind, names, body, children⟩ expanded).andThen
            (walkAll symbols expanded children)

/-- Walks several trees, one behind the other, from the same drafts. -/
def walkAll (symbols : Symbols) (drafts : List Draft) :
    List Declaration → Trace
  | [] => .empty
  | declaration :: rest =>
      (walk symbols drafts declaration).andThen (walkAll symbols drafts rest)

end

end Declaration

end Cascade
