import Cascade.Naming.Error
import Cascade.Ident.Escape
import Cascade.Selector.Tally

/-!
# Selectors under construction

A draft is what has been built of one selector on the way down a declaration
tree: its links, the name that a part would extend, whether the last compound
still holds nothing but that name's class, the effects on the whole selector
that are applied at the end, and the running tally.  Every step changes the last
link and appends further ones; no other link is ever touched.
-/

namespace Cascade

/-- Effects on a whole selector, collected on the way down. -/
structure Scope where
  /-- A tweak was passed: the selector starts at the document's root. -/
  rooted : Bool
  /-- An option was passed: the selector is raised by one element. -/
  boosted : Bool
  /-- A fragment was passed: the selector is not raised. -/
  raw : Bool
  deriving DecidableEq

namespace Scope

def none : Scope := ⟨false, false, false⟩

def emitsBoost (scope : Scope) : Bool :=
  scope.boosted && !scope.raw

/-- The effects that the three lowest bits of a number switch on. -/
def ofBits (bits : Nat) : Scope :=
  ⟨bits.testBit 0, bits.testBit 1, bits.testBit 2⟩

def toBits (scope : Scope) : Nat :=
  scope.rooted.toNat + 2 * scope.boosted.toNat + 4 * scope.raw.toNat

/-- Whether every bit of a number stands for an effect. -/
def knowsBits (bits : Nat) : Bool :=
  (ofBits bits).toBits == bits

end Scope

namespace Selector

def mapLast (change : Link → Link) : Selector → Selector
  | [] => []
  | [last] => [change last]
  | link :: next :: rest => link :: mapLast change (next :: rest)

def push (selector : Selector) (combinator : Combinator) (compound : Compound) :
    Selector :=
  mapLast (fun last => { last with combinator := combinator }) selector ++
    [⟨compound, .none⟩]

@[simp]
theorem mapLast_concat (change : Link → Link) (links : Selector) (last : Link) :
    mapLast change (links ++ [last]) = links ++ [change last] := by
  induction links with
  | nil => rfl
  | cons link rest ih =>
      cases rest with
      | nil => rfl
      | cons next rest => exact congrArg (link :: ·) ih

@[simp]
theorem length_mapLast (change : Link → Link) (links : Selector) :
    (mapLast change links).length = links.length := by
  fun_induction mapLast change links with
  | case1 => rfl
  | case2 => rfl
  | case3 link next rest ih => simp only [List.length_cons, ih]

end Selector

structure Draft where
  links : Selector
  /-- The name, unescaped, that a part extends. -/
  base : Option Text
  /-- Whether the last compound holds nothing but the class of `base`. -/
  pristine : Bool
  scope : Scope
  tally : Tally
  /-- The declarations passed so far, the outermost first. -/
  trail : List Text

/-- The written form of a name, which has to exist. -/
def escaped (name : Text) : Except NamingError Text :=
  match Ident.escape? name with
  | some text => .ok text
  | none => .error (.unescapable name)

namespace Draft

def empty : Draft where
  links := []
  base := none
  pristine := false
  scope := .none
  tally := .zero
  trail := []

def enter (draft : Draft) (display : Text) : Draft :=
  { draft with trail := draft.trail ++ [display] }

/-- The draft's last declaration cannot apply here. -/
def misplaced (draft : Draft) (reason : Misplacement) : NamingError :=
  .misplaced draft.trail reason

def pushClass (draft : Draft) (name : Text) : Draft :=
  { draft with
    links := draft.links.push .descendant [.className name]
    tally := draft.tally.addClass }

/-- Names the block or part that further parts extend. -/
def settle (draft : Draft) (name : Text) : Draft :=
  { draft with base := some name, pristine := true }

/-- A component, a tweak or a location starts a new element. -/
def openBlock (draft : Draft) (name : Text) : Except NamingError Draft :=
  (escaped name).map fun text => (draft.pushClass text).settle name

/-- A part extends the name of its block.  As long as the block's class stands
alone, the part's class takes its place; otherwise it starts a new element. -/
def openPart (draft : Draft) (symbol name : Text) : Except NamingError Draft :=
  match draft.base with
  | none => .error (draft.misplaced .partWithoutBlock)
  | some base =>
      let full := base ++ symbol ++ name
      (escaped full).map fun text =>
        if draft.pristine then
          { draft with
            links := draft.links.mapLast fun last =>
              { last with compound := [.className text] } }.settle full
        else (draft.pushClass text).settle full

def addOption (draft : Draft) (name : Text) : Except NamingError Draft :=
  if draft.base.isNone then .error (draft.misplaced .optionWithoutBlock)
  else
    (escaped name).map fun text =>
      { draft with
        links := draft.links.mapLast fun last =>
          { last with compound := last.compound ++ [.className text] }
        tally := draft.tally.addClass
        scope := { draft.scope with boosted := true }
        pristine := false }

/-- A sibling is a copy of the current element right behind it. -/
def repeatLast (draft : Draft) : Except NamingError Draft :=
  match draft.links.getLast? with
  | none => .error (draft.misplaced .siblingWithoutElement)
  | some last =>
      .ok { draft with
        links := draft.links.push .adjacent last.compound
        tally := draft.tally.countCompound last.compound }

end Draft

end Cascade
