import Cascade.Proofs.Stylesheet.ReadBack

/-!
# Which printed rules are read back

The reader looks for a brace whatever stands in front of it, and takes comments
out before it looks at anything.  An opening brace in a selector text therefore
ends it, and a comment takes a star out of it, or its own opening brace and with
that a whole rule.  So where every selector text comes back, none of them holds
either of the two.
-/

namespace Cascade

namespace Rule

open Sheet (HasComment Closed stripComments skipComment)

/-- A rule whose body holds no comment and nothing that could be taken for the
edge of a block, a string or a group. -/
structure HasPlainBody (rule : Rule) : Prop where
  silent : ¬ HasComment rule.body
  plain : ∀ c ∈ ['{', '}', '"', '\'', '(', ')'], c ∉ rule.body

variable {rule : Rule} {rules : List Rule}

instance (rule : Rule) : Decidable rule.HasPlainBody :=
  decidable_of_iff (¬ HasComment rule.body ∧
      ['{', '}', '"', '\'', '(', ')'].all fun c => c ∉ rule.body)
    ⟨fun ⟨hsilent, hplain⟩ => ⟨hsilent, by simpa using hplain⟩,
      fun h => ⟨h.silent, by simpa using h.plain⟩⟩

namespace HasPlainBody

theorem closed (h : rule.HasPlainBody) : Closed ['}'] rule.body := by
  refine .of_chars fun c hc => ⟨?_, ?_⟩
  · rw [List.mem_singleton]
    rintro rfl
    exact h.plain _ (by simp) hc
  · rw [Bool.eq_false_iff]
    intro hopener
    simp only [Sheet.isOpener, Enclosed.isQuote, Bool.or_eq_true, beq_iff_eq] at hopener
    rcases hopener with rfl | rfl | rfl <;> exact h.plain _ (by simp) hc

theorem not_mem_inside (h : rule.HasPlainBody) : '{' ∉ rule.inside := by
  intro hmem
  simp only [inside, Sheet.lines, List.mem_append, List.mem_flatMap] at hmem
  obtain ⟨declaration, hdeclaration, (hindent | hmem) | hend⟩ | hend := hmem
  · exact absurd hindent (by decide)
  · exact h.plain _ (by simp)
      ((Sheet.mem_splitDeclarations hdeclaration).2.2.subset hmem)
  · exact absurd hend (by decide)
  · exact absurd hend (by decide)

end HasPlainBody

/-- A rule behind a line end, its selector text apart from the rest. -/
theorem spread_cons (rule : Rule) (rules : List Rule) :
    spread (rule :: rules) =
      ('\n' :: rule.selectorText ++ [' ']) ++
        '{' :: (rule.inside ++ '}' :: '\n' :: spread rules) := by
  simp [spread, render_eq]

theorem head?_spread (rules : List Rule) : (spread rules).head? ≠ some '*' := by
  cases rules <;> simp [spread]

/-- There is one opening brace for each rule, apart from those in selectors. -/
theorem count_spread (h : ∀ rule ∈ rules, rule.HasPlainBody ∧
      '{' ∉ rule.selectorText) :
    (spread rules).count '{' = rules.length := by
  induction rules with
  | nil => rfl
  | cons rule rest ih =>
      rw [List.forall_mem_cons] at h
      have hinside := List.count_eq_zero_of_not_mem h.1.1.not_mem_inside
      have hselector := List.count_eq_zero_of_not_mem h.1.2
      rw [spread_cons]
      simp [hinside, hselector, ih h.2]

/-- Taking comments out leaves the bodies as they are. -/
theorem strip_inside (h : rule.HasPlainBody) (rest : List Rule) :
    stripComments (rule.inside ++ '}' :: '\n' :: spread rest) =
      rule.inside ++ '}' :: '\n' :: stripComments (spread rest) := by
  have hclose : Sheet.OpensNoComment ['}', '\n'] :=
    Sheet.opensNoComment_of_not_mem (by decide)
  have hinside := ((opensNoComment_inside h.silent).append hclose).2
  have hstrip := Sheet.stripComments_append hinside (head?_spread rest)
  simpa using hstrip

/-- A selector text keeps its stars only if no comment is taken out of it. -/
theorem not_hasComment_of_trim {text : Text}
    (h : Text.trim (stripComments ('\n' :: text ++ [' '])) = Text.trim text) :
    ¬ HasComment text := by
  intro hcomment
  have hstar : Text.isSpace '*' = false := by decide
  have hlt : (stripComments ('\n' :: text ++ [' '])).count '*' <
      ('\n' :: text ++ [' ']).count '*' :=
    Sheet.count_stripComments_lt (hcomment.mono ⟨['\n'], [' '], rfl⟩)
  have heq := calc
    (stripComments ('\n' :: text ++ [' '])).count '*'
    _ = (Text.trim text).count '*' := by rw [← h, Text.count_trim hstar]
    _ = text.count '*' := Text.count_trim hstar text
    _ = ('\n' :: text ++ [' ']).count '*' := by simp
  exact absurd heq hlt.ne

/-- Behind a comment that is still open at its brace a rule is lost. -/
theorem length_readRun_le_of_open {kept : Text} (hkept : '{' ∉ kept)
    (hplain : rule.HasPlainBody)
    (hrest : ∀ rule ∈ rules, rule.HasPlainBody ∧ '{' ∉ rule.selectorText) :
    (Block.readRun (kept ++ skipComment
      (rule.inside ++ '}' :: '\n' :: spread rules))).1.length ≤ rules.length := by
  calc
    (Block.readRun (kept ++ skipComment
        (rule.inside ++ '}' :: '\n' :: spread rules))).1.length
    _ ≤ (kept ++ skipComment (rule.inside ++ '}' :: '\n' :: spread rules)).count
        '{' := Block.length_readRun_le _
    _ = (skipComment (rule.inside ++ '}' :: '\n' :: spread rules)).count '{' := by
        rw [List.count_append, List.count_eq_zero_of_not_mem hkept, Nat.zero_add]
    _ ≤ (rule.inside ++ '}' :: '\n' :: spread rules).count '{' :=
        (Sheet.skipComment_sublist _).count_le _
    _ = rules.length := by
        simp [List.count_eq_zero_of_not_mem hplain.not_mem_inside, count_spread hrest]

/-- Selector texts that are read back hold no comment. -/
theorem not_hasComment_of_readRun (h : ∀ rule ∈ rules, rule.HasPlainBody ∧
      '{' ∉ rule.selectorText)
    (hread : (Block.readRun (stripComments (spread rules))).1.map Block.selector =
      rules.map fun rule => Text.trim rule.selectorText) :
    ∀ rule ∈ rules, ¬ HasComment rule.selectorText := by
  induction rules with
  | nil => simp
  | cons rule rest ih =>
      obtain ⟨⟨hplain, hbrace⟩, hrest⟩ := List.forall_mem_cons.mp h
      have hfront : '{' ∉ '\n' :: rule.selectorText ++ [' '] := by simp [hbrace]
      have hmark := @Sheet.stripComments_append_mark '{' (by decide) (by decide)
        (rule.inside ++ '}' :: '\n' :: spread rest)
        ('\n' :: rule.selectorText ++ [' '])
      rw [spread_cons] at hread
      rcases hmark with hclosed | ⟨kept, hkept, hlost⟩
      · -- The rule is found, with what is left of its selector text.
        have hkept := Sheet.stripComments_sublist ('\n' :: rule.selectorText ++ [' '])
        rw [hclosed, strip_inside hplain, Block.readRun_of_ok
          (read_inside hplain.closed (fun hmem => hfront (hkept.subset hmem)) _)] at hread
        obtain ⟨htrim, htail⟩ := List.cons.inj hread
        have hblank : Text.IsBlank ['\n'] := by decide
        have htail := (congrArg _ (Block.fst_readRun_blanks_append hblank _)).symm.trans htail
        exact List.forall_mem_cons.mpr ⟨not_hasComment_of_trim htrim, ih hrest htail⟩
      · -- A brace is gone, and so there are too few of them for all the rules.
        have hlength := congrArg List.length hread
        rw [hlost, List.length_map, List.length_map, List.length_cons] at hlength
        have hle := length_readRun_le_of_open (fun hmem => hfront (hkept.subset hmem))
          hplain hrest
        omega

theorem renderAll_eq_spread (hne : rules ≠ []) : '\n' :: renderAll rules = spread rules := by
  obtain ⟨rule, rest, rfl⟩ := List.exists_cons_of_ne_nil hne
  rw [renderAll_cons]
  rfl

/-- The line end in front of the first rule makes no difference. -/
theorem fst_readRun_spread (hne : rules ≠ []) :
    (Block.readRun (stripComments (spread rules))).1 =
      (Block.readRun (stripComments (renderAll rules))).1 := by
  have hblank : Text.IsBlank ['\n'] := by decide
  rw [← renderAll_eq_spread hne, Sheet.stripComments_cons (by simp)]
  exact Block.fst_readRun_blanks_append hblank _

/-- Rules with plain bodies are read back with their selector texts exactly if
these hold neither an opening brace nor a comment, and have weights. -/
theorem readRules_renderAll_iff (hne : rules ≠ [])
    (hplain : ∀ rule ∈ rules, rule.HasPlainBody) :
    (∃ found, Sheet.readRules (renderAll rules) = .ok found ∧
        found.map ReadRule.selector = rules.map fun rule => Text.trim rule.selectorText) ↔
      ∀ rule ∈ rules, '{' ∉ rule.selectorText ∧ ¬ HasComment rule.selectorText ∧
        ∃ weights, Selector.specificities (Text.trim rule.selectorText) = .ok weights := by
  constructor
  · rintro ⟨found, hread, hvalues⟩
    have hweighed := Sheet.mapM_weigh_of_readRules hread
    rw [← fst_readRun_spread hne] at hweighed
    rw [Sheet.map_selector_of_mapM hweighed] at hvalues
    have hblock (rule : Rule) (hrule : rule ∈ rules) :
        ∃ block ∈ (Block.readRun (stripComments (spread rules))).1,
          block.selector = Text.trim rule.selectorText :=
      List.mem_map.mp (hvalues ▸ List.mem_map_of_mem hrule)
    have hbrace (rule : Rule) (hrule : rule ∈ rules) : '{' ∉ rule.selectorText := by
      obtain ⟨block, hmem, hselector⟩ := hblock rule hrule
      have hnot := Block.not_mem_selector _ block hmem
      rw [hselector] at hnot
      have hkept : Text.isSpace '{' = false := by decide
      rwa [← List.count_eq_zero, ← Text.count_trim hkept, List.count_eq_zero]
    have hcomment := not_hasComment_of_readRun
      (fun rule hrule => ⟨hplain rule hrule, hbrace rule hrule⟩) hvalues
    refine fun rule hrule => ⟨hbrace rule hrule, hcomment rule hrule, ?_⟩
    obtain ⟨block, hmem, hselector⟩ := hblock rule hrule
    obtain ⟨read, _, hweigh⟩ := exists_of_mem_left (mapM_eq_ok_iff.mp hweighed) hmem
    obtain ⟨weights, hweights, _⟩ := Sheet.weigh_eq_ok_iff.mp hweigh
    exact ⟨weights, hselector ▸ hweights⟩
  · intro h
    have hlegible (rule : Rule) (hrule : rule ∈ rules) : rule.Legible :=
      ⟨(h rule hrule).1, (h rule hrule).2.1, (hplain rule hrule).silent,
        (hplain rule hrule).closed⟩
    obtain ⟨found, hfound⟩ : ∃ found, (rules.map block).mapM Sheet.weigh = .ok found := by
      refine exists_mapM_eq_ok (List.forall_mem_map.mpr fun rule hrule => ?_)
      obtain ⟨weights, hweights⟩ := (h rule hrule).2.2
      exact ⟨_, Sheet.weigh_eq_ok_iff.mpr ⟨weights, hweights, rfl⟩⟩
    refine ⟨found, (readRules_renderAll hne hlegible).trans hfound, ?_⟩
    rw [Sheet.map_selector_of_mapM hfound, List.map_map]
    rfl

end Rule

namespace Stylesheet

variable {table : SymbolTable} {sheet : Stylesheet} {rules : List Rule}

/-- A compiled stylesheet with plain bodies is read back rule by rule exactly if no
selector text holds an opening brace or a comment and every one has weights.  Intact
selectors have weights, and without fragments braces are all that can go wrong. -/
theorem readRules_renderAll_compile_iff (h : sheet.compile table = .ok rules)
    (hne : rules ≠ []) (hbodies : ∀ rule ∈ rules, rule.HasPlainBody) :
    ((∃ found, Sheet.readRules (Rule.renderAll rules) = .ok found ∧
        found.map ReadRule.selector = rules.map fun rule => Text.trim rule.selectorText) ↔
      ∀ rule ∈ rules, '{' ∉ rule.selectorText ∧ ¬ Sheet.HasComment rule.selectorText ∧
        ∃ weights, Selector.specificities (Text.trim rule.selectorText) = .ok weights) ∧
    (∀ rule ∈ rules, (∀ named ∈ rule.selectors, Selector.Intact named.selector) →
      ∃ weights, Selector.specificities (Text.trim rule.selectorText) = .ok weights) ∧
    ((∀ place ∈ sheet.places, place.node.kind ≠ .raw) →
      ∀ rule ∈ rules, ¬ Sheet.HasComment rule.selectorText ∧
        ∃ weights, Selector.specificities (Text.trim rule.selectorText) = .ok weights) := by
  refine ⟨Rule.readRules_renderAll_iff hne hbodies, fun rule hrule hintact => ?_,
    fun hraw rule hrule => ?_⟩
  · rw [rule.selectorText_eq]
    refine Selector.exists_specificities_trim
      (List.forall_mem_map.mpr (hasTrimmableEnds_of_mem_compile h hrule))
      (List.forall_mem_map.mpr hintact) ?_
    simpa using (exists_yields_of_mem_compile h hrule).1
  · obtain ⟨hcomment, _, hweights⟩ := legible_of_mem_compile h hraw hrule
    exact ⟨hcomment, _, hweights⟩

theorem readRules_renderAll_compile_iff_star :
    ∃ rule, compile .initial
        [.ofDeclaration ⟨.component, ["a/*b".toList], some "top: 0".toList, []⟩] =
          .ok [rule] ∧
      (∀ each ∈ [rule], each.HasPlainBody) ∧
      (∀ place ∈ places
        [.ofDeclaration ⟨.component, ["a/*b".toList], some "top: 0".toList, []⟩],
          place.node.kind ≠ .raw) ∧
      rule.selectorText = ".a\\/\\*b".toList ∧
      ∃ found, Sheet.readRules (Rule.renderAll [rule]) = .ok found ∧
        found.map ReadRule.selector = [Text.trim rule.selectorText] := by
  obtain ⟨rule, hrules, hbodies, htext⟩ : ∃ rule, compile .initial
      [.ofDeclaration ⟨.component, ["a/*b".toList], some "top: 0".toList, []⟩] =
        .ok [rule] ∧
      (∀ each ∈ [rule], each.HasPlainBody) ∧
      rule.selectorText = ".a\\/\\*b".toList := by
    refine ⟨⟨[⟨[⟨[.className "a\\/\\*b".toList], .none⟩], ⟨0, 1, 0⟩, "top: 0".toList⟩],
      "top: 0".toList⟩, ?_, ?_, ?_⟩
    all_goals decide +kernel
  have hraw : ∀ place ∈ places
      [.ofDeclaration ⟨.component, ["a/*b".toList], some "top: 0".toList, []⟩],
        place.node.kind ≠ .raw := by
    decide
  obtain ⟨hiff, _, hnames⟩ := readRules_renderAll_compile_iff hrules (by simp) hbodies
  have hread := hiff.mpr fun each heach => by
    obtain rfl := List.mem_singleton.mp heach
    exact ⟨by rw [htext]; decide, hnames hraw each heach⟩
  exact ⟨rule, hrules, hbodies, hraw, htext, hread⟩

/-- The reader ends a selector at the brace of a name, and takes what looks like a
comment out of a fragment. -/
theorem readRules_renderAll_compile_ne :
    (∃ rule, compile .initial
        [.ofDeclaration ⟨.component, [['a', '{', 'b']], some "top: 0".toList, []⟩] =
          .ok [rule] ∧
      rule.HasPlainBody ∧ rule.selectorText = ['.', 'a', '\\', '{', 'b'] ∧
      Sheet.readRules (Rule.renderAll [rule]) =
        .error (.malformed (.leftover .selectorList ['\\']))) ∧
    ∃ rule read, compile .initial
        [.ofDeclaration ⟨.raw, ["[a=/*x*/]".toList], some "top: 0".toList, []⟩] =
          .ok [rule] ∧
      rule.HasPlainBody ∧ Text.trim rule.selectorText = "[a=/*x*/]".toList ∧
      Sheet.readRules (Rule.renderAll [rule]) = .ok [read] ∧
      read.selector = "[a=]".toList := by
  refine ⟨⟨⟨[⟨[⟨[.className ['a', '\\', '{', 'b']], .none⟩], ⟨0, 1, 0⟩, "top: 0".toList⟩],
      "top: 0".toList⟩, ?_⟩,
    ⟨⟨[⟨[⟨[.attribute ['a'] "/*x*/".toList], .none⟩], ⟨0, 1, 0⟩, "top: 0".toList⟩],
      "top: 0".toList⟩, ⟨"[a=]".toList, ⟨0, 0, 1, 0⟩, "top: 0;".toList⟩, ?_⟩⟩
  all_goals decide +kernel

end Stylesheet

end Cascade
