import Cascade.Sheet.Comment
import Cascade.Sheet.Block
import Cascade.Selector.Whole

/-!
# Reading a stylesheet back

A stylesheet is read rule by rule, and nothing is skipped but comments and the
blanks between rules.  Each rule is given the specificity of the first selector
in its list, counted from the text alone.
-/

namespace Cascade

structure ReadRule where
  selector : Text
  specificity : Specificity
  body : Text
  deriving DecidableEq

inductive SheetError where
  | malformed (cause : Malformed)
  | noRules
  | noRuleAt (index : Nat)
  /-- There is no such text, or its bytes are not UTF-8. -/
  | unreadable
  deriving DecidableEq

def SheetError.message : SheetError → Text
  | .malformed cause => cause.message
  | .noRules => "stylesheet contains no rules".toList
  | .noRuleAt index => "no rule at index ".toList ++ Nat.toDigits 10 index
  | .unreadable => "I/O error reading stylesheet".toList

namespace Sheet

/-- A block with the weight of its first selector. -/
def weigh (block : Block) : Except SheetError ReadRule :=
  match Selector.specificities block.selector with
  | .ok weights =>
      .ok ⟨block.selector, weights.head?.getD .zero, block.body⟩
  | .error cause => .error (.malformed cause)

def readRules (css : Text) : Except SheetError (List ReadRule) :=
  match Block.readAll (stripComments css) with
  | (_, c :: rest) =>
      .error (.malformed (.leftover .stylesheet (c :: rest)))
  | ([], []) => .error .noRules
  | (block :: blocks, []) => (block :: blocks).mapM weigh

/-- The rule at a place of a stylesheet, counted from zero. -/
def readRule (css : Text) (index : Nat) : Except SheetError ReadRule :=
  match readRules css with
  | .error cause => .error cause
  | .ok rules =>
      match rules[index]? with
      | some rule => .ok rule
      | none => .error (.noRuleAt index)

/-- The text of a stored stylesheet.  Every character is kept, a byte order mark
included. -/
def contents : Option ByteArray → Except SheetError Text
  | none => .error .unreadable
  | some bytes =>
      match String.fromUTF8? bytes with
      | some text => .ok text.toList
      | none => .error .unreadable

end Sheet

end Cascade
