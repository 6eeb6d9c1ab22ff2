import Cascade.Proofs.Lists
import Cascade.Proofs.Selector.Whole
import Cascade.Proofs.Sheet.Block
import Cascade.Sheet.Reader

/-!
# What a stylesheet is read from

The rules of a stylesheet account for all of it.  Once the comments are out, each rule
is read from a stretch of the text: blanks, a selector text without an opening brace,
and between braces a body that closes whatever it opens.  The stretches follow each
other without a gap, and behind the last one there is nothing but blanks.
-/

namespace Cascade

/-! ## Blocks -/

/-- A block as it stands in a text, with the blanks in front of it. -/
structure Stretch where
  blanks : Text
  selector : Text
  body : Text

namespace Stretch

def text (stretch : Stretch) : Text :=
  stretch.blanks ++ stretch.selector ++ '{' :: (stretch.body ++ ['}'])

def block (stretch : Stretch) : Block :=
  ⟨Text.trim stretch.selector, Text.trim stretch.body⟩

/-- A stretch whose parts end where the reader ends them. -/
structure IsWhole (stretch : Stretch) : Prop where
  blank : Text.IsBlank stretch.blanks
  braceless : '{' ∉ stretch.selector
  whole : Sheet.upTo '}' stretch.body = (stretch.body, [])

end Stretch

namespace Block

variable {input rest : Text} {block : Block} {blocks : List Block}

/-- A block is read from a stretch. -/
theorem read_eq_ok_iff_stretch :
    read input = .ok (block, rest) ↔
      ∃ stretch : Stretch, stretch.IsWhole ∧ input = stretch.text ++ rest ∧
        block = stretch.block := by
  rw [read_eq_ok_iff]
  constructor
  · rintro ⟨front, inside, hfront, hclosed, rfl, rfl⟩
    obtain ⟨blanks, hblanks, hstart, _⟩ := Text.exists_skipBlanks front
    refine ⟨⟨blanks, Text.skipBlanks front, inside⟩,
      ⟨hblanks, mt Text.mem_of_mem_skipBlanks hfront, Sheet.upTo_eq_self_iff.mpr hclosed⟩,
      ?_, ?_⟩
    · simp [Stretch.text, ← hstart]
    · rw [Stretch.block, Text.trim_skipBlanks]
  · rintro ⟨stretch, hwhole, rfl, rfl⟩
    have hbrace : '{' ∉ stretch.blanks :=
      fun hmem => absurd (hwhole.blank _ hmem) (by decide)
    refine ⟨stretch.blanks ++ stretch.selector, stretch.body, ?_,
      Sheet.upTo_eq_self_iff.mp hwhole.whole, ?_, ?_⟩
    · exact List.mem_append.not.mpr (not_or.mpr ⟨hbrace, hwhole.braceless⟩)
    · simp [Stretch.text]
    · rw [Stretch.block, hwhole.blank.trim_append]

/-- Blocks take up a whole text exactly if it is made of their stretches, with blanks
behind them. -/
theorem readAll_eq_iff :
    readAll input = (blocks, []) ↔
      ∃ (stretches : List Stretch) (blanks : Text),
        input = stretches.flatMap Stretch.text ++ blanks ∧ Text.IsBlank blanks ∧
        (∀ stretch ∈ stretches, stretch.IsWhole) ∧
        stretches.map Stretch.block = blocks := by
  constructor
  · intro h
    obtain ⟨rfl, hbehind⟩ := Prod.mk.inj h
    clear h
    fun_induction readRun input with
    | case1 input block rest hread found ih =>
        obtain ⟨stretch, hwhole, rfl, rfl⟩ := read_eq_ok_iff_stretch.mp hread
        obtain ⟨stretches, blanks, hrest, hblanks, hall, hfound⟩ := ih hbehind
        refine ⟨stretch :: stretches, blanks, ?_, hblanks,
          List.forall_mem_cons.mpr ⟨hwhole, hall⟩, congrArg (stretch.block :: ·) hfound⟩
        rw [List.flatMap_cons, List.append_assoc, ← hrest]
    | case2 input fault hread =>
        exact ⟨[], input, rfl, Text.skipBlanks_eq_nil_iff.mp hbehind, by simp, rfl⟩
  · rintro ⟨stretches, blanks, rfl, hblanks, hall, rfl⟩
    have hrun : readRun (stretches.flatMap Stretch.text ++ blanks) =
        (stretches.map Stretch.block, blanks) := by
      induction stretches with
      | nil =>
          have hbrace : '{' ∉ blanks := fun hmem => absurd (hblanks _ hmem) (by decide)
          exact readRun_of_error (read_of_not_mem hbrace)
      | cons stretch stretches ih =>
          rw [List.forall_mem_cons] at hall
          have hread := read_eq_ok_iff_stretch.mpr ⟨stretch, hall.1,
            (rfl : stretch.text ++ (stretches.flatMap Stretch.text ++ blanks) = _), rfl⟩
          rw [List.flatMap_cons, List.append_assoc, readRun_of_ok hread, ih hall.2,
            List.map_cons]
    rw [readAll, hrun, Text.skipBlanks_eq_nil_iff.mpr hblanks]

end Block

namespace Sheet

variable {css : Text} {block : Block} {rules : List ReadRule} {read : ReadRule}

/-! ## Weights -/

theorem weigh_eq_ok_iff :
    weigh block = .ok read ↔
      ∃ weights, Selector.specificities block.selector = .ok weights ∧
        read = ⟨block.selector, weights.head?.getD .zero, block.body⟩ := by
  unfold weigh
  cases Selector.specificities block.selector <;> simp [eq_comm]

/-- Weighing keeps the selector texts. -/
theorem map_selector_of_mapM {blocks : List Block} (h : blocks.mapM weigh = .ok rules) :
    rules.map ReadRule.selector = blocks.map Block.selector := by
  have hall := mapM_eq_ok_iff.mp h
  clear h
  induction hall with
  | nil => rfl
  | cons hweigh _ ih =>
      obtain ⟨weights, _, rfl⟩ := weigh_eq_ok_iff.mp hweigh
      rw [List.map_cons, List.map_cons, ih]

/-! ## Rules -/

/-- The rules of a stylesheet are its blocks, each of them weighed, if there is a block
and nothing but blocks. -/
theorem readRules_eq_ok_iff_mapM :
    readRules css = .ok rules ↔
      ∃ blocks, Block.readAll (stripComments css) = (blocks, []) ∧ blocks ≠ [] ∧
        blocks.mapM weigh = .ok rules := by
  unfold readRules
  obtain ⟨blocks, behind⟩ := Block.readAll (stripComments css)
  cases behind with
  | cons c rest => simp
  | nil => cases blocks <;> simp

/-- What is read of a stylesheet are its blocks, each of them weighed. -/
theorem mapM_weigh_of_readRules (h : readRules css = .ok rules) :
    (Block.readRun (stripComments css)).1.mapM weigh = .ok rules := by
  obtain ⟨blocks, hall, _, hweigh⟩ := readRules_eq_ok_iff_mapM.mp h
  obtain rfl : (Block.readRun (stripComments css)).1 = blocks := congrArg Prod.fst hall
  exact hweigh

/-- A list of selectors has a first member, and that has a weight. -/
theorem exists_head?_of_specificities {text : Text} {weights : List Specificity}
    (h : Selector.specificities text = .ok weights) :
    ∃ first, weights.head? = some first := by
  obtain ⟨members, hmembers, rfl⟩ := exists_of_map_eq_ok h
  obtain ⟨list, after, _, hspells, _⟩ := Selector.listOfText_eq_ok_iff.mp hmembers
  obtain ⟨first, rest, rfl⟩ := List.exists_cons_of_ne_nil hspells.ne_nil
  exact ⟨_, rfl⟩

structure IsReadFrom (rule : ReadRule) (stretch : Stretch) : Prop extends
    stretch.IsWhole where
  selector : rule.selector = Text.trim stretch.selector
  body : rule.body = Text.trim stretch.body
  /-- The first weight of the selector text is that of the rule. -/
  weights : ∃ weights, Selector.specificities rule.selector = .ok weights ∧
    weights.head? = some rule.specificity

theorem weigh_block_eq_ok_iff {stretch : Stretch} (h : stretch.IsWhole) :
    weigh stretch.block = .ok read ↔ IsReadFrom read stretch := by
  rw [weigh_eq_ok_iff]
  constructor
  · rintro ⟨weights, hweights, rfl⟩
    obtain ⟨first, hfirst⟩ := exists_head?_of_specificities hweights
    exact ⟨h, rfl, rfl, weights, hweights, by rw [hfirst]; rfl⟩
  · rintro ⟨_, hselector, hbody, weights, hweights, hfirst⟩
    rw [hselector] at hweights
    refine ⟨weights, hweights, ?_⟩
    rw [hfirst, Stretch.block, ← hselector, ← hbody]
    rfl

/-- A stylesheet is read exactly if, without its comments, it is made of stretches with
blanks behind them, at least one of them, and there is a weight for each.  Its rules are
read from these stretches, one from each and in their order. -/
theorem readRules_eq_ok_iff :
    readRules css = .ok rules ↔
      rules ≠ [] ∧ ∃ (stretches : List Stretch) (blanks : Text),
        stripComments css = stretches.flatMap Stretch.text ++ blanks ∧
        Text.IsBlank blanks ∧ List.Forall₂ IsReadFrom rules stretches := by
  rw [readRules_eq_ok_iff_mapM]
  constructor
  · rintro ⟨blocks, hall, hne, hweigh⟩
    obtain ⟨stretches, blanks, hcss, hblanks, hwhole, rfl⟩ := Block.readAll_eq_iff.mp hall
    have hrules := mapM_eq_ok_iff.mp hweigh
    rw [List.forall₂_map_left_iff] at hrules
    refine ⟨?_, stretches, blanks, hcss, hblanks, ?_⟩
    · rintro rfl
      rw [List.forall₂_nil_right_iff] at hrules
      exact hne (by rw [hrules, List.map_nil])
    · refine ((List.forall₂_and_left _ _).mpr ⟨hwhole, hrules⟩).flip.imp ?_
      exact fun rule stretch h => (weigh_block_eq_ok_iff h.1).mp h.2
  · rintro ⟨hne, stretches, blanks, hcss, hblanks, hread⟩
    have hwhole (stretch : Stretch) (hmem : stretch ∈ stretches) : stretch.IsWhole := by
      obtain ⟨rule, _, hfrom⟩ := exists_of_mem_right hread hmem
      exact hfrom.toIsWhole
    refine ⟨stretches.map Stretch.block,
      Block.readAll_eq_iff.mpr ⟨stretches, blanks, hcss, hblanks, hwhole, rfl⟩, ?_, ?_⟩
    · rintro hnil
      rw [List.map_eq_nil_iff.mp hnil, List.forall₂_nil_right_iff] at hread
      exact hne hread
    · rw [mapM_eq_ok_iff, List.forall₂_map_left_iff]
      exact hread.flip.imp fun stretch rule h => (weigh_block_eq_ok_iff h.toIsWhole).mpr h

/-- A brace too many keeps the whole stylesheet from being read. -/
example : (readRules ['a', '{', '}', ' ', '}', ' ', 'b', '{', '}']).isOk = false := by
  decide +kernel

end Sheet

end Cascade
