import Cascade.Proofs.Stylesheet.ReadBack

/-!
# One rule in a text of its own

A block keeps strings and groups of its body whole, but comments are taken out before
there are blocks, and whoever takes them out knows no strings.  So a rule comes back
as it was written exactly if no comment opens in its body, be it inside a string, and
if its selector text still has weights once it is trimmed.  That a comment cannot go
unnoticed is counted in stars: every comment takes one with it.
-/

namespace Cascade

/-- A block holds no more of a character than the text it is read from. -/
theorem Block.count_le_of_read {input rest : Text} {block : Block}
    (h : Block.read input = .ok (block, rest)) {c : Char} (hc : Text.isSpace c = false) :
    block.selector.count c + block.body.count c ≤ input.count c := by
  obtain ⟨front, inside, _, _, rfl, rfl⟩ := Block.read_eq_ok_iff.mp h
  calc
    (Text.trim front).count c + (Text.trim inside).count c
      = front.count c + inside.count c := by rw [Text.count_trim hc, Text.count_trim hc]
    _ ≤ (front ++ '{' :: (inside ++ '}' :: rest)).count c := by
        have hinside : inside.count c ≤ ('{' :: (inside ++ '}' :: rest)).count c :=
          List.Sublist.count_le c ((List.sublist_append_left inside _).cons _)
        rw [List.count_append]
        omega

namespace Sheet

variable {selector body : Text} {rule : ReadRule}

def blockText (selector body : Text) : Text :=
  selector ++ '{' :: (body ++ ['}'])

theorem not_hasComment_blockText (hselector : ¬ HasComment selector)
    (hbody : ¬ HasComment body) : ¬ HasComment (blockText selector body) :=
  not_hasComment_append hselector (opensNoComment_cons (by decide) (by decide)
    (not_hasComment_append hbody (opensNoComment_of_not_mem (by decide))))

/-- Without comments a block is read, and weighed. -/
theorem readRules_blockText (hbrace : '{' ∉ selector)
    (hclosed : Closed ['}'] body) (hcomment : ¬ HasComment (blockText selector body)) :
    readRules (blockText selector body) =
      [Block.mk (Text.trim selector) (Text.trim body)].mapM weigh := by
  have hread : Block.read (blockText selector body) =
      .ok (⟨Text.trim selector, Text.trim body⟩, []) := Block.read_append hbrace hclosed []
  have hall : Block.readAll (blockText selector body) =
      ([⟨Text.trim selector, Text.trim body⟩], []) := by
    have hend := Block.read_of_not_mem (List.not_mem_nil (a := '{'))
    rw [Block.readAll, Block.readRun_of_ok hread, Block.readRun_of_error hend]
    rfl
  simp only [readRules, stripComments_eq_self hcomment, hall]

/-- What is read as a single rule is a single block, which it takes its texts from. -/
theorem exists_block_of_readRules {css : Text} (h : readRules css = .ok [rule]) :
    ∃ block rest, Block.read (stripComments css) = .ok (block, rest) ∧
      weigh block = .ok rule := by
  have hblocks := mapM_eq_ok_iff.mp (mapM_weigh_of_readRules h)
  cases hfound : Block.read (stripComments css) with
  | ok found =>
      obtain ⟨block, rest⟩ := found
      rw [Block.readRun_of_ok hfound] at hblocks
      exact ⟨block, rest, rfl, (List.forall₂_cons.mp hblocks).1⟩
  | error fault =>
      rw [Block.readRun_of_error hfound] at hblocks
      cases hblocks

/-- Where both texts come back, no comment opens in them. -/
theorem not_hasComment_of_readRules
    (h : readRules (blockText selector body) = .ok [rule])
    (hselector : rule.selector = Text.trim selector) (hbody : rule.body = Text.trim body) :
    ¬ HasComment (blockText selector body) := by
  intro hcomment
  obtain ⟨block, rest, hread, hweigh⟩ := exists_block_of_readRules h
  obtain ⟨_, _, rfl⟩ := weigh_eq_ok_iff.mp hweigh
  -- The two texts hold all the stars there are, and a comment takes one away.
  have hstar : Text.isSpace '*' = false := by decide
  have hkept := Block.count_le_of_read hread hstar
  have hlost := count_stripComments_lt hcomment
  rw [show block.selector = _ from hselector, show block.body = _ from hbody,
    Text.count_trim hstar, Text.count_trim hstar] at hkept
  have hall : (blockText selector body).count '*' = selector.count '*' + body.count '*' := by
    simp [blockText]
  omega

/-- A block whose selector text opens no block and no comment, and whose body is read
whole, comes back exactly if its body opens no comment, inside a string or not, and
its trimmed selector text has weights. -/
theorem readRules_blockText_iff (hbrace : '{' ∉ selector)
    (hselector : ¬ HasComment selector) (hbody : upTo '}' body = (body, [])) :
    (∃ rule, readRules (blockText selector body) = .ok [rule] ∧
        rule.selector = Text.trim selector ∧ rule.body = Text.trim body) ↔
      ¬ HasComment body ∧
        ∃ weights, Selector.specificities (Text.trim selector) = .ok weights := by
  have hclosed := upTo_eq_self_iff.mp hbody
  constructor
  · rintro ⟨rule, hread, htrimmed, hcontent⟩
    have hcomment := not_hasComment_of_readRules hread htrimmed hcontent
    refine ⟨fun h => hcomment (h.mono ⟨selector ++ ['{'], ['}'], by simp [blockText]⟩), ?_⟩
    rw [readRules_blockText hbrace hclosed hcomment] at hread
    obtain ⟨hweigh, _⟩ := List.forall₂_cons.mp (mapM_eq_ok_iff.mp hread)
    obtain ⟨weights, hweights, _⟩ := weigh_eq_ok_iff.mp hweigh
    exact ⟨weights, hweights⟩
  · rintro ⟨hsilent, weights, hweights⟩
    have hweigh : weigh ⟨Text.trim selector, Text.trim body⟩ =
        .ok ⟨Text.trim selector, weights.head?.getD .zero, Text.trim body⟩ :=
      weigh_eq_ok_iff.mpr ⟨weights, hweights, rfl⟩
    refine ⟨⟨Text.trim selector, weights.head?.getD .zero, Text.trim body⟩, ?_, rfl, rfl⟩
    rw [readRules_blockText hbrace hclosed (not_hasComment_blockText hselector hsilent)]
    exact mapM_eq_ok_iff.mpr (.cons hweigh .nil)

/-- A string keeps a brace and a semicolon to itself. -/
theorem readRules_blockText_iff_brace :
    ∃ body, body = " content: \"".toList ++ '}' :: ";\" ".toList ∧
      '{' ∉ "a , b".toList ∧ ¬ HasComment "a , b".toList ∧
      upTo '}' body = (body, []) ∧ ¬ HasComment body ∧
      (∃ weights, Selector.specificities (Text.trim "a , b".toList) = .ok weights) ∧
      ∃ rule, readRules (blockText "a , b".toList body) = .ok [rule] ∧
        rule.selector = "a , b".toList ∧
        rule.body = "content: \"".toList ++ '}' :: ";\"".toList := by
  have hbrace : '{' ∉ "a , b".toList := by decide +kernel
  have hselector : ¬ HasComment "a , b".toList := by decide +kernel
  obtain ⟨body, hbody⟩ : ∃ body, body = " content: \"".toList ++ '}' :: ";\" ".toList :=
    ⟨_, rfl⟩
  have hclosed : upTo '}' body = (body, []) := by
    subst hbody
    decide +kernel
  have hsilent : ¬ HasComment body := by
    subst hbody
    decide +kernel
  have htrim : Text.trim body = "content: \"".toList ++ '}' :: ";\"".toList := by
    subst hbody
    decide +kernel
  have hweights : Selector.specificities (Text.trim "a , b".toList) =
      .ok [⟨0, 0, 0, 1⟩, ⟨0, 0, 0, 1⟩] := by decide +kernel
  obtain ⟨rule, hread, htrimmed, hcontent⟩ :=
    (readRules_blockText_iff hbrace hselector hclosed).mpr ⟨hsilent, _, hweights⟩
  exact ⟨body, hbody, hbrace, hselector, hclosed, hsilent, ⟨_, hweights⟩, rule, hread,
    htrimmed.trans (by decide +kernel), hcontent.trans htrim⟩

/-- What looks like a comment is taken out of a string, and a selector text that ends in
an escaped space has no weights without that space. -/
theorem readRules_blockText_ne :
    ((∃ members, Selector.listOfText ['a'] = .ok members) ∧
      '{' ∉ ['a'] ∧ ¬ HasComment ['a'] ∧
      upTo '}' "content: \"/*x*/\"".toList = ("content: \"/*x*/\"".toList, []) ∧
      "content: \"/*x*/\"".toList = "content: ".toList ++ "\"/*x*/\"".toList ∧
      ¬ HasComment "content: ".toList ∧
      Enclosed.enclosed? "\"/*x*/\"".toList = some ("\"/*x*/\"".toList, []) ∧
      readRules (blockText ['a'] "content: \"/*x*/\"".toList) =
        .ok [⟨['a'], ⟨0, 0, 0, 1⟩, "content: \"\"".toList⟩] ∧
      Text.trim "content: \"/*x*/\"".toList ≠ "content: \"\"".toList) ∧
    (∃ members, Selector.listOfText "a\\ ".toList = .ok members) ∧
      '{' ∉ "a\\ ".toList ∧ ¬ HasComment "a\\ ".toList ∧
      upTo '}' "top: 0".toList = ("top: 0".toList, []) ∧ ¬ HasComment "top: 0".toList ∧
      ¬ ∃ rules, readRules (blockText "a\\ ".toList "top: 0".toList) = .ok rules := by
  have hfirst : Selector.listOfText ['a'] = .ok [[⟨[.element ['a']], .none⟩]] := by
    decide +kernel
  have hsecond : Selector.listOfText "a\\ ".toList =
      .ok [[⟨[.element "a\\ ".toList], .none⟩]] := by decide +kernel
  have herror : (readRules (blockText "a\\ ".toList "top: 0".toList)).isOk = false := by
    decide +kernel
  refine ⟨⟨⟨_, hfirst⟩, ?_⟩, ⟨_, hsecond⟩, ?_, ?_, ?_, ?_, ?_⟩
  · decide +kernel
  · decide +kernel
  · decide +kernel
  · decide +kernel
  · decide +kernel
  · rintro ⟨rules, hrules⟩
    rw [hrules] at herror
    cases herror

end Sheet

end Cascade
