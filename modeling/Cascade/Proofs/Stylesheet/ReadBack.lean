import Cascade.Proofs.Naming.RoundTrip
import Cascade.Proofs.Sheet.Reader
import Cascade.Proofs.Stylesheet.Compile

/-!
# Reading a printed stylesheet

The printed text of some rules is read rule by rule if nothing in a selector text
opens a block or a comment and every body is closed.  What is read back of a rule
is its selector text without white space at the edges and its declarations, laid
out as they are printed.  Where the rules were compiled without fragments only
the bodies are left to be asked for.
-/

namespace Cascade

namespace Rule

open Sheet (HasComment OpensNoComment Closed)

def block (rule : Rule) : Block where
  selector := Text.trim rule.selectorText
  body := Sheet.layout (Sheet.splitDeclarations rule.body)

/-- A rule whose parts end where they are meant to. -/
structure Legible (rule : Rule) : Prop where
  braceless : '{' ∉ rule.selectorText
  commentless : ¬ HasComment rule.selectorText
  silent : ¬ HasComment rule.body
  closed : Closed ['}'] rule.body

/-! ## The printed text -/

def inside (rule : Rule) : Text :=
  Sheet.lines (Sheet.splitDeclarations rule.body) ++ ['\n']

theorem flatMap_declarationLine (declarations : List Text) :
    '\n' :: declarations.flatMap declarationLine =
      Sheet.lines declarations ++ ['\n'] := by
  induction declarations with
  | nil => rfl
  | cons declaration rest ih =>
      rw [Sheet.lines_cons, List.append_assoc]
      change _ = _ ++ ';' :: (Sheet.lines rest ++ ['\n'])
      rw [← ih, List.flatMap_cons, declarationLine]
      simp

theorem render_eq (rule : Rule) :
    rule.render =
      rule.selectorText ++ ' ' :: '{' :: (rule.inside ++ ['}', '\n']) := by
  rw [inside, ← flatMap_declarationLine, render]
  simp

/-- Rules, each of them behind an empty line. -/
def spread (rules : List Rule) : Text :=
  rules.flatMap fun rule => '\n' :: rule.render

theorem renderAll_cons (rule : Rule) (rules : List Rule) :
    renderAll (rule :: rules) = rule.render ++ spread rules := by
  induction rules generalizing rule with
  | nil => simp [renderAll, spread]
  | cons next rest ih =>
      have hnext := ih next
      rw [renderAll, List.map_cons] at hnext ⊢
      rw [List.map_cons, List.intercalate_cons_cons, hnext]
      simp [spread]

/-! ## No comments -/

/-- A body without comments is printed as lines without comments. -/
theorem opensNoComment_inside {rule : Rule} (h : ¬ HasComment rule.body) :
    OpensNoComment rule.inside := by
  refine OpensNoComment.append (OpensNoComment.flatMap fun declaration hmem => ?_)
    (Sheet.opensNoComment_of_not_mem (by decide))
  have hsilent : ¬ HasComment declaration :=
    fun hcomment => h (hcomment.mono (Sheet.mem_splitDeclarations hmem).2.2)
  have hindent : OpensNoComment ['\n', ' '] := Sheet.opensNoComment_of_not_mem (by decide)
  have hline : OpensNoComment (' ' :: declaration) :=
    Sheet.opensNoComment_cons (by decide) (by decide) hsilent
  exact hindent.append (hline.append (Sheet.opensNoComment_of_not_mem (by decide)))

theorem Legible.not_hasComment {rule : Rule} (h : rule.Legible) :
    ¬ HasComment rule.render := by
  have hopen : OpensNoComment [' ', '{'] := Sheet.opensNoComment_of_not_mem (by decide)
  have hclose : OpensNoComment ['}', '\n'] := Sheet.opensNoComment_of_not_mem (by decide)
  rw [render_eq]
  exact Sheet.not_hasComment_append h.commentless
    (hopen.append ((opensNoComment_inside h.silent).append hclose))

theorem not_hasComment_renderAll {rules : List Rule}
    (h : ∀ rule ∈ rules, rule.Legible) : ¬ HasComment (renderAll rules) := by
  cases rules with
  | nil => exact Sheet.opensNoComment_nil.2
  | cons rule rest =>
      rw [List.forall_mem_cons] at h
      rw [renderAll_cons]
      refine Sheet.not_hasComment_append h.1.not_hasComment (OpensNoComment.flatMap ?_)
      exact fun next hnext =>
        Sheet.opensNoComment_cons (by decide) (by decide) (h.2 next hnext).not_hasComment

/-! ## Rule by rule -/

theorem closed_inside {rule : Rule} (hclosed : Closed ['}'] rule.body) :
    Closed ['}'] rule.inside :=
  (Sheet.closed_lines fun declaration hmem =>
    (hclosed.declarations declaration hmem).mono (by simp)).append
    (.of_spaces (by decide) (List.all_eq_true.mp (by decide)))

/-- Behind anything but an opening brace a body is read up to the closing one. -/
theorem read_inside {rule : Rule} (hclosed : Closed ['}'] rule.body) {front : Text}
    (hfront : '{' ∉ front) (rest : Text) :
    Block.read (front ++ '{' :: (rule.inside ++ '}' :: rest)) =
      .ok (⟨Text.trim front, rule.block.body⟩, rest) := by
  rw [Block.read_append hfront (closed_inside hclosed), inside,
    Sheet.trim_lines hclosed.areSplittable]
  rfl

/-- A printed rule is read up to its closing brace. -/
theorem read_render {rule : Rule} (hbrace : '{' ∉ rule.selectorText)
    (hclosed : Closed ['}'] rule.body) (rest : Text) :
    Block.read (rule.render ++ rest) = .ok (rule.block, '\n' :: rest) := by
  have hfront : '{' ∉ rule.selectorText ++ [' '] := by
    simp [hbrace]
  have hread := read_inside hclosed hfront ('\n' :: rest)
  rw [Text.trim_append_spaces (List.all_eq_true.mp (by decide))] at hread
  rw [render_eq]
  simpa [block] using hread

/-- The rules behind a line end. -/
theorem readRun_spread {rules : List Rule} (h : ∀ rule ∈ rules,
      '{' ∉ rule.selectorText ∧ Closed ['}'] rule.body) :
    Block.readRun ('\n' :: spread rules) = (rules.map block, ['\n']) := by
  induction rules with
  | nil =>
      exact Block.readRun_of_error
        (show Block.read ['\n'] = .error (.recoverable .openingBrace []) by decide)
  | cons rule rest ih =>
      rw [List.forall_mem_cons] at h
      have hblanks : Text.IsBlank ['\n', '\n'] := by decide
      have hread := read_render h.1.1 h.1.2 (spread rest)
      rw [← Block.read_blanks_append hblanks] at hread
      rw [List.map_cons, show '\n' :: spread (rule :: rest) =
        ['\n', '\n'] ++ (rule.render ++ spread rest) by simp [spread],
        Block.readRun_of_ok hread, ih h.2]

/-- Legible rules are read one by one. -/
theorem readRules_renderAll {rules : List Rule} (hne : rules ≠ [])
    (h : ∀ rule ∈ rules, rule.Legible) :
    Sheet.readRules (renderAll rules) = (rules.map block).mapM Sheet.weigh := by
  have hstrip := Sheet.stripComments_eq_self (not_hasComment_renderAll h)
  obtain ⟨first, rest, rfl⟩ := List.exists_cons_of_ne_nil hne
  rw [List.forall_mem_cons] at h
  have hread := read_render h.1.braceless h.1.closed (spread rest)
  rw [← renderAll_cons] at hread
  have hall : Block.readAll (renderAll (first :: rest)) =
      ((first :: rest).map block, []) := by
    rw [Block.readAll, Block.readRun_of_ok hread,
      readRun_spread fun rule hrule => ⟨(h.2 rule hrule).braceless, (h.2 rule hrule).closed⟩]
    rfl
  simp only [Sheet.readRules, hstrip, hall, List.map_cons]

/-- What a rule and what was read in its place have in common. -/
structure IsReadAs (rule : Rule) (found : ReadRule) : Prop where
  selector : found.selector = Text.trim rule.selectorText
  specificity : rule.specificities.head? = some found.specificity
  body : found.body = Sheet.layout (Sheet.splitDeclarations rule.body)

/-- What a rule is read as if its text weighs what its tallies say. -/
theorem isReadAs_of_weigh {rule : Rule} {read : ReadRule}
    (hne : rule.specificities ≠ [])
    (hweights : Selector.specificities (Text.trim rule.selectorText) =
      .ok rule.specificities) (h : Sheet.weigh rule.block = .ok read) :
    rule.IsReadAs read := by
  obtain ⟨weights, hfound, rfl⟩ := Sheet.weigh_eq_ok_iff.mp h
  obtain rfl : rule.specificities = weights := Except.ok.inj (hweights.symm.trans hfound)
  refine ⟨rfl, ?_, rfl⟩
  obtain ⟨first, rest, hfirst⟩ := List.exists_cons_of_ne_nil hne
  rw [hfirst]
  rfl

/-- Printing laid out declarations lays them out as they are. -/
theorem render_layout {rule : Rule} (hclosed : Closed ['}'] rule.body) :
    render { rule with body := Sheet.layout (Sheet.splitDeclarations rule.body) } =
      rule.render := by
  simp only [render, selectorText, Sheet.splitDeclarations_layout hclosed.areSplittable]

/-- Printing what was read of the bodies gives the same text. -/
theorem renderAll_zipWith {rules : List Rule} {found : List ReadRule}
    (hread : List.Forall₂ IsReadAs rules found)
    (hclosed : ∀ rule ∈ rules, Closed ['}'] rule.body) :
    renderAll (List.zipWith (fun rule read => { rule with body := read.body })
      rules found) = renderAll rules := by
  unfold renderAll
  congr 1
  induction hread with
  | nil => rfl
  | @cons rule read rules found hrule _ ih =>
      rw [List.forall_mem_cons] at hclosed
      rw [List.zipWith_cons_cons, List.map_cons, List.map_cons, ih hclosed.2, hrule.body,
        render_layout hclosed.1]

end Rule

namespace Stylesheet

variable {table : SymbolTable} {sheet : Stylesheet} {rules : List Rule}

/-- Without fragments no comment opens in the selectors of a rule, and without the
white space at their edges they weigh what their tallies say. -/
theorem legible_of_mem_compile (h : sheet.compile table = .ok rules)
    (hraw : ∀ place ∈ sheet.places, place.node.kind ≠ .raw) {rule : Rule}
    (hrule : rule ∈ rules) :
    ¬ Sheet.HasComment rule.selectorText ∧ rule.specificities ≠ [] ∧
      Selector.specificities (Text.trim rule.selectorText) = .ok rule.specificities := by
  have hne := (exists_yields_of_mem_compile h hrule).1
  have hnamed := plain_of_mem_compile h hraw hrule
  have hplain : ∀ member ∈ rule.selectors.map NamedSelector.selector,
      Selector.Assembled Simple.IsPlain member ∧ Selector.HasTrimmableEnds member :=
    List.forall_mem_map.mpr fun named hmem =>
      ⟨(hnamed named hmem).1, (hasTrimmableEnds_of_mem_compile h hrule named hmem).2⟩
  have hweights : (rule.selectors.map NamedSelector.selector).map Selector.specificity =
      rule.specificities := by
    rw [List.map_map]
    exact List.map_congr_left fun named hmem => (hnamed named hmem).2.symm
  rw [rule.selectorText_eq]
  refine ⟨(Selector.opensNoComment_listText fun member hmem => (hplain member hmem).1).2,
    ?_, ?_⟩
  · simpa [Rule.specificities] using hne
  · rw [Selector.specificities_trim_of_isPlain (by simpa using hne) hplain, hweights]

/-- A stylesheet that is compiled without fragments and opening braces is read
back from its printed text if its bodies are closed and hold no comment. -/
theorem readRules_renderAll_compile (hsymbols : table.current.Braceless)
    (hplain : sheet.IsPlain) (h : sheet.compile table = .ok rules) (hne : rules ≠ [])
    (hbodies : ∀ rule ∈ rules, ¬ Sheet.HasComment rule.body ∧
      Sheet.upTo '}' rule.body = (rule.body, [])) :
    ∃ found, Sheet.readRules (Rule.renderAll rules) = .ok found ∧
      List.Forall₂ Rule.IsReadAs rules found ∧
      Rule.renderAll (List.zipWith (fun rule read => { rule with body := read.body })
        rules found) = Rule.renderAll rules := by
  have hraw : ∀ place ∈ sheet.places, place.node.kind ≠ .raw :=
    fun place hplace => (hplain place hplace).1
  have hclosed (rule : Rule) (hrule : rule ∈ rules) : Sheet.Closed ['}'] rule.body :=
    Sheet.upTo_eq_self_iff.mp (hbodies rule hrule).2
  have hlegible (rule : Rule) (hrule : rule ∈ rules) : rule.Legible := by
    have hbrace : '{' ∉ rule.selectorText := by
      rw [rule.selectorText_eq]
      exact Selector.not_mem_listText (List.forall_mem_map.mpr
        (braceless_of_mem_compile h hsymbols hplain hrule))
    exact ⟨hbrace, (legible_of_mem_compile h hraw hrule).1, (hbodies rule hrule).1,
      hclosed rule hrule⟩
  obtain ⟨found, hfound⟩ : ∃ found, rules.mapM (Sheet.weigh ∘ Rule.block) =
      .ok found := by
    refine exists_mapM_eq_ok fun rule hrule => ?_
    obtain ⟨_, _, hweights⟩ := legible_of_mem_compile h hraw hrule
    exact ⟨_, Sheet.weigh_eq_ok_iff.mpr ⟨_, hweights, rfl⟩⟩
  have hread : List.Forall₂ Rule.IsReadAs rules found := by
    have hboth := (List.forall₂_and_left _ _).mpr
      ⟨fun rule hrule => legible_of_mem_compile h hraw hrule,
        mapM_eq_ok_iff.mp hfound⟩
    refine hboth.imp fun rule read ⟨⟨_, hhead, hweights⟩, hweigh⟩ => ?_
    exact Rule.isReadAs_of_weigh hhead hweights hweigh
  refine ⟨found, ?_, hread, Rule.renderAll_zipWith hread hclosed⟩
  rw [Rule.readRules_renderAll hne hlegible, List.mapM_map, hfound]

/-- The empty declaration is dropped, the brace in the string closes nothing, and the
space behind the second name, which closes an escape, is trimmed. -/
theorem readRules_renderAll_compile_digit :
    ∃ sheet body rule read,
      body = "top: 0;; content: \"".toList ++ '}' :: "\" ".toList ∧
      sheet = [.ofDeclaration ⟨.component, [['b'], ['2']], some body, []⟩] ∧
      SymbolTable.initial.current.Braceless ∧ IsPlain sheet ∧
      compile .initial sheet = .ok [rule] ∧
      (∀ each ∈ [rule], ¬ Sheet.HasComment each.body ∧
        Sheet.upTo '}' each.body = (each.body, [])) ∧
      rule.selectorText = ".b, .\\32 ".toList ∧
      Sheet.readRules (Rule.renderAll [rule]) = .ok [read] ∧
      rule.IsReadAs read ∧
      read.selector = ".b, .\\32".toList ∧
      read.specificity = ⟨0, 0, 1, 0⟩ ∧
      read.body = "top: 0;\n  content: \"".toList ++ '}' :: "\";".toList ∧
      Rule.renderAll [⟨rule.selectors, read.body⟩] = Rule.renderAll [rule] := by
  have hsymbols : SymbolTable.initial.current.Braceless := by
    intro kind
    cases kind <;> decide
  obtain ⟨body, hbody⟩ : ∃ body, body = "top: 0;; content: \"".toList ++ '}' :: "\" ".toList :=
    ⟨_, rfl⟩
  have hplain : IsPlain [.ofDeclaration ⟨.component, [['b'], ['2']], some body, []⟩] := by
    subst hbody
    unfold IsPlain Declaration.IsPlain
    decide +kernel
  obtain ⟨rule, hrule⟩ : ∃ rule : Rule, rule =
      ⟨[⟨[⟨[.className ['b']], .none⟩], ⟨0, 1, 0⟩, body⟩,
        ⟨[⟨[.className "\\32 ".toList], .none⟩], ⟨0, 1, 0⟩, body⟩], body⟩ := ⟨_, rfl⟩
  have hrules : compile .initial
      [.ofDeclaration ⟨.component, [['b'], ['2']], some body, []⟩] = .ok [rule] := by
    subst hrule hbody
    decide +kernel
  have hbodies : ∀ each ∈ [rule], ¬ Sheet.HasComment each.body ∧
      Sheet.upTo '}' each.body = (each.body, []) := by
    subst hrule hbody
    decide +kernel
  obtain ⟨found, hread, hall, hprint⟩ :=
    readRules_renderAll_compile hsymbols hplain hrules (by simp) hbodies
  obtain ⟨read, _, hfirst, hrest, rfl⟩ := List.forall₂_cons_left_iff.mp hall
  obtain rfl := List.forall₂_nil_left_iff.mp hrest
  have hselector : rule.selectorText = ".b, .\\32 ".toList := by
    subst hrule hbody
    decide +kernel
  have hweight : rule.specificities.head? = some ⟨0, 0, 1, 0⟩ := by
    subst hrule
    rfl
  have hlayout : Sheet.layout (Sheet.splitDeclarations rule.body) =
      "top: 0;\n  content: \"".toList ++ '}' :: "\";".toList := by
    subst hrule hbody
    decide +kernel
  refine ⟨_, body, rule, read, hbody, rfl, hsymbols, hplain, hrules, hbodies, hselector,
    hread, hfirst, ?_, ?_, hfirst.body.trans hlayout, hprint⟩
  · rw [hfirst.selector, hselector]
    decide +kernel
  · exact Option.some.inj (hfirst.specificity.symm.trans hweight)

end Stylesheet

end Cascade
