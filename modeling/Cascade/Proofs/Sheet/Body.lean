import Cascade.Proofs.Text.Enclosed
import Cascade.Proofs.Text.Trim
import Cascade.Sheet.Body

/-!
# Bodies that end where they end

A text is closed for some marks if it is made of strings, groups and characters
that are none of the marks.  Such a text is read whole in front of a mark.  The
declarations of a closed body are closed for the semicolon as well, and written
one behind the other they are split into themselves again.
-/

namespace Cascade.Sheet

open Enclosed (enclosed? enclosed?_append exists_of_enclosed?)

/-- A text of strings, groups and characters that are none of some marks. -/
inductive Closed (marks : List Char) : Text → Prop
  | nil : Closed marks []
  | piece {piece rest : Text} : enclosed? piece = some (piece, []) →
      Closed marks rest → Closed marks (piece ++ rest)
  | char {c : Char} {rest : Text} : c ∉ marks → isOpener c = false →
      Closed marks rest → Closed marks (c :: rest)

variable {marks : List Char} {mark c : Char} {text rest spaces : Text}

theorem isOpener_iff : isOpener c = true ↔ c = '(' ∨ Enclosed.isQuote c = true := by
  simp [isOpener]

theorem isOpener_of_isSpace (h : Text.isSpace c = true) : isOpener c = false := by
  apply Bool.eq_false_iff.mpr
  intro hopener
  simp only [isOpener, Enclosed.isQuote, Bool.or_eq_true, beq_iff_eq] at hopener
  rcases hopener with rfl | rfl | rfl <;> revert h <;> decide

/-- Where neither a string nor a group opens, none is found. -/
theorem enclosed?_eq_none (h : isOpener c = false) (rest : Text) :
    enclosed? (c :: rest) = none := by
  cases hfound : enclosed? (c :: rest) with
  | none => rfl
  | some found =>
      obtain ⟨piece, behind⟩ := found
      have happend := Enclosed.append_of_enclosed? hfound
      obtain ⟨opener, content, closer, rfl, hopener, _⟩ := exists_of_enclosed? hfound
      obtain rfl : opener = c := (List.cons.inj happend).1
      rw [isOpener_iff.mpr hopener] at h
      cases h

namespace Closed

theorem append (h : Closed marks text) (hrest : Closed marks rest) :
    Closed marks (text ++ rest) := by
  induction h with
  | nil => exact hrest
  | piece hpiece _ ih =>
      rw [List.append_assoc]
      exact .piece hpiece ih
  | char hmark hopener _ ih => exact .char hmark hopener ih

theorem mono {fewer : List Char} (h : Closed marks text) (hfewer : fewer ⊆ marks) :
    Closed fewer text := by
  induction h with
  | nil => exact .nil
  | piece hpiece _ ih => exact .piece hpiece ih
  | char hmark hopener _ ih => exact .char (fun hmem => hmark (hfewer hmem)) hopener ih

theorem of_chars (h : ∀ c ∈ text, c ∉ marks ∧ isOpener c = false) :
    Closed marks text := by
  induction text with
  | nil => exact .nil
  | cons c rest ih =>
      rw [List.forall_mem_cons] at h
      exact .char h.1.1 h.1.2 (ih h.2)

/-- White space is closed for every mark that is none. -/
theorem of_spaces (hmark : Text.isSpace mark = false)
    (h : ∀ c ∈ spaces, Text.isSpace c = true) : Closed [mark] spaces := by
  refine .of_chars fun c hc => ⟨?_, isOpener_of_isSpace (h c hc)⟩
  rw [List.mem_singleton]
  rintro rfl
  rw [h c hc] at hmark
  cases hmark

theorem of_cons (h : Closed marks (c :: rest)) (hc : isOpener c = false) :
    Closed marks rest := by
  generalize htext : c :: rest = text at h
  cases h with
  | nil => cases htext
  | piece hpiece _ =>
      obtain ⟨opener, content, closer, rfl, hopener, _⟩ := exists_of_enclosed? hpiece
      obtain rfl : c = opener := (List.cons.inj htext).1
      rw [isOpener_iff.mpr hopener] at hc
      cases hc
  | char _ _ hrest =>
      cases htext
      exact hrest

theorem of_spaces_append (hspaces : ∀ c ∈ spaces, Text.isSpace c = true)
    (h : Closed marks (spaces ++ text)) : Closed marks text := by
  induction spaces with
  | nil => exact h
  | cons c spaces ih =>
      rw [List.forall_mem_cons] at hspaces
      exact ih hspaces.2 (h.of_cons (isOpener_of_isSpace hspaces.1))

/-- No string or group ends in white space. -/
theorem of_append_spaces (hspaces : ∀ c ∈ spaces, Text.isSpace c = true)
    (h : Closed marks (text ++ spaces)) : Closed marks text := by
  generalize hwhole : text ++ spaces = whole at h
  induction h generalizing text with
  | nil =>
      rw [(List.append_eq_nil_iff.mp hwhole).1]
      exact .nil
  | @piece piece rest hpiece hrest ih =>
      obtain ⟨opener, content, closer, hends, _, hcloser⟩ := exists_of_enclosed? hpiece
      rcases List.append_eq_append_iff.mp hwhole with
        ⟨tail, htext, rfl⟩ | ⟨tail, rfl, hrest⟩
      · rcases List.eq_nil_or_concat tail with rfl | ⟨front, last, rfl⟩
        · rw [← List.append_nil text, ← htext, ← List.append_nil piece]
          exact .piece hpiece .nil
        · -- The closer would be white space.
          rw [hends, List.concat_eq_append, ← List.append_assoc] at htext
          obtain rfl : closer = last :=
            List.singleton_inj.mp (List.append_inj' htext rfl).2
          rw [hspaces closer (by simp)] at hcloser
          cases hcloser
      · exact .piece hpiece (ih hrest.symm)
  | char hmark hopener hrest ih =>
      cases text with
      | nil => exact .nil
      | cons d text =>
          obtain ⟨rfl, hrest⟩ := List.cons.inj hwhole
          exact .char hmark hopener (ih hrest)

protected theorem trim (h : Closed marks text) : Closed marks (Text.trim text) := by
  obtain ⟨before, after, htext, hbefore, hafter⟩ := Text.exists_trim text
  rw [htext, List.append_assoc] at h
  exact (h.of_spaces_append hbefore).of_append_spaces hafter

/-- A closed text is read whole, and reading goes on behind it. -/
theorem upTo_append (h : Closed [mark] text) (rest : Text) :
    upTo mark (text ++ rest) = (text ++ (upTo mark rest).1, (upTo mark rest).2) := by
  induction h with
  | nil => rfl
  | @piece piece behind hpiece _ ih =>
      rw [List.append_assoc, upTo_of_enclosed (enclosed?_append hpiece _), ih,
        List.append_assoc]
  | @char c behind hmark hopener _ ih =>
      rw [List.cons_append, upTo_cons (enclosed?_eq_none hopener _), ih,
        if_neg (by simpa [hopener] using hmark)]
      rfl

/-- In front of a mark reading stops. -/
theorem upTo_append_mark (h : Closed [mark] text) (hmark : isOpener mark = false)
    (rest : Text) : upTo mark (text ++ mark :: rest) = (text, mark :: rest) := by
  rw [h.upTo_append, upTo_cons (enclosed?_eq_none hmark rest), if_pos (by simp),
    List.append_nil]

end Closed

/-- What is read up to a mark is closed. -/
theorem closed_upTo (mark : Char) (input : Text) : Closed [mark] (upTo mark input).1 := by
  fun_induction upTo mark input with
  | case1 input piece rest henclosed found ih =>
      have hpiece := enclosed?_append henclosed []
      rw [List.append_nil] at hpiece
      exact .piece hpiece ih
  | case2 => exact .nil
  | case3 => exact .nil
  | case4 c rest _ hc found ih =>
      simp only [Bool.or_eq_true, decide_eq_true_eq, not_or, Bool.not_eq_true] at hc
      exact .char (by simpa using hc.1) hc.2 ih

/-- Reading up to a mark takes a whole text exactly if the text is closed. -/
theorem upTo_eq_self_iff : upTo mark text = (text, []) ↔ Closed [mark] text := by
  constructor
  · intro h
    have hclosed := closed_upTo mark text
    rwa [h] at hclosed
  · intro h
    have hwhole := h.upTo_append []
    rwa [List.append_nil, upTo_nil, List.append_nil] at hwhole

/-! ## Declarations -/

/-- Up to a mark a closed text is closed for that mark too, and so is the text
behind the mark. -/
theorem Closed.upTo (h : Closed marks text) (mark : Char) :
    Closed (mark :: marks) (upTo mark text).1 ∧
      ((upTo mark text).2 = [] ∨
        ∃ rest, (upTo mark text).2 = mark :: rest ∧ Closed marks rest) := by
  induction h with
  | nil => exact ⟨by rw [upTo_nil]; exact .nil, .inl (by rw [upTo_nil])⟩
  | @piece piece rest hpiece _ ih =>
      rw [upTo_of_enclosed (enclosed?_append hpiece rest)]
      exact ⟨.piece hpiece ih.1, ih.2⟩
  | @char c rest hmark hopener hrest ih =>
      rw [upTo_cons (enclosed?_eq_none hopener rest), hopener, Bool.or_false]
      by_cases hc : c = mark
      · rw [if_pos (by simpa using hc)]
        exact ⟨.nil, .inr ⟨rest, by rw [hc], hrest⟩⟩
      · rw [if_neg (by simpa using hc)]
        exact ⟨.char (by simp [hc, hmark]) hopener ih.1, ih.2⟩

/-- The pieces of a closed text are closed for the semicolon too. -/
theorem Closed.pieces (h : Closed marks text) :
    ∀ piece ∈ pieces text, Closed (';' :: marks) piece := by
  fun_induction Sheet.pieces text with
  | case1 body piece hpiece =>
      have hclosed := (h.upTo ';').1
      rw [hpiece] at hclosed
      exact List.forall_mem_singleton.mpr hclosed
  | case2 body piece rest hpiece ih =>
      have hclosed := h.upTo ';'
      rw [hpiece] at hclosed
      obtain ⟨hfirst, hrest⟩ := hclosed
      rcases hrest with hnil | ⟨behind, hbehind, hclosed⟩
      · cases hnil
      · cases hbehind
        exact List.forall_mem_cons.mpr ⟨hfirst, ih hclosed⟩
  | case3 body piece c rest hpiece hc =>
      have hclosed := (h.upTo ';').2
      rw [hpiece] at hclosed
      rcases hclosed with hnil | ⟨behind, hbehind, _⟩
      · cases hnil
      · cases hbehind
        exact absurd rfl hc

theorem infix_of_mem_pieces {piece : Text} (h : piece ∈ pieces text) :
    piece <:+: text := by
  fun_induction pieces text with
  | case1 body front hfront =>
      have happend := append_of_upTo ';' body
      rw [hfront, List.append_nil] at happend
      obtain rfl : front = body := happend
      obtain rfl := List.mem_singleton.mp h
      exact List.infix_refl _
  | case2 body front rest hfront ih =>
      have happend := append_of_upTo ';' body
      rw [hfront] at happend
      rcases List.mem_cons.mp h with rfl | h
      · exact ⟨[], _, happend⟩
      · refine (ih h).trans ⟨front ++ [';'], [], ?_⟩
        rw [List.append_nil, List.append_assoc]
        exact happend
  | case3 body =>
      obtain rfl := List.mem_singleton.mp h
      exact List.infix_refl _

/-- A declaration stands in its body, without white space at its edges, and
nothing is empty. -/
theorem mem_splitDeclarations {declaration : Text}
    (h : declaration ∈ splitDeclarations text) :
    Text.IsTrimmed declaration ∧ declaration ≠ [] ∧ declaration <:+: text := by
  obtain ⟨hmem, hne⟩ := List.mem_filter.mp h
  obtain ⟨piece, hpiece, rfl⟩ := List.mem_map.mp hmem
  obtain ⟨before, after, htext, _⟩ := Text.exists_trim piece
  have hinfix : Text.trim piece <:+: piece := ⟨before, after, htext.symm⟩
  exact ⟨Text.isTrimmed_trim piece, by simpa using hne,
    hinfix.trans (infix_of_mem_pieces hpiece)⟩

/-- The declarations of a closed body are closed for the semicolon too. -/
theorem Closed.declarations (h : Closed marks text) :
    ∀ declaration ∈ splitDeclarations text, Closed (';' :: marks) declaration := by
  intro declaration hmem
  obtain ⟨piece, hpiece, rfl⟩ := List.mem_map.mp (List.mem_filter.mp hmem).1
  exact (h.pieces piece hpiece).trim

theorem pieces_of_closed (h : Closed [';'] text) : pieces text = [text] := by
  have hwhole := upTo_eq_self_iff.mpr h
  rw [pieces.eq_def]
  split <;> rename_i heq <;> cases hwhole.symm.trans heq
  rfl

theorem pieces_append (h : Closed [';'] text) (rest : Text) :
    pieces (text ++ ';' :: rest) = text :: pieces rest := by
  have hfront := h.upTo_append_mark (by decide) rest
  rw [pieces.eq_def]
  split <;> rename_i heq <;> cases hfront.symm.trans heq
  rw [if_pos rfl]

theorem splitDeclarations_nil : splitDeclarations [] = [] := by
  rw [splitDeclarations, pieces_of_closed .nil]
  rfl

/-- A declaration is split off at its semicolon, whatever white space stands in
front of it. -/
theorem splitDeclarations_append {declaration : Text}
    (hspaces : ∀ c ∈ spaces, Text.isSpace c = true)
    (hclosed : Closed [';'] declaration) (htrimmed : Text.IsTrimmed declaration)
    (hne : declaration ≠ []) (rest : Text) :
    splitDeclarations (spaces ++ declaration ++ ';' :: rest) =
      declaration :: splitDeclarations rest := by
  have hgap : Closed [';'] spaces := .of_spaces (by decide) hspaces
  have htrim : Text.trim (spaces ++ declaration) = declaration :=
    Text.trim_eq_iff.mpr ⟨htrimmed, spaces, [], (List.append_nil _).symm, hspaces, by simp⟩
  rw [splitDeclarations, pieces_append (hgap.append hclosed), List.map_cons, htrim,
    List.filter_cons_of_pos (by simpa using hne)]
  rfl

/-! ## Laid out declarations -/

/-- Declarations one below the other, each with its semicolon. -/
def layout (declarations : List Text) : Text :=
  List.intercalate ['\n', ' ', ' '] (declarations.map (· ++ [';']))

def lines (declarations : List Text) : Text :=
  declarations.flatMap fun declaration =>
    ['\n', ' ', ' '] ++ declaration ++ [';']

variable {declaration : Text} {declarations : List Text}

theorem isSpace_of_mem_indent : ∀ c ∈ ['\n', ' ', ' '], Text.isSpace c = true :=
  List.all_eq_true.mp (by decide)

theorem lines_cons :
    lines (declaration :: declarations) =
      ['\n', ' ', ' '] ++ declaration ++ ';' :: lines declarations := by
  simp [lines]

/-- Only the first declaration stands on no line of its own. -/
theorem layout_cons :
    layout (declaration :: declarations) = declaration ++ ';' :: lines declarations := by
  induction declarations generalizing declaration with
  | nil => simp [layout, lines]
  | cons next rest ih =>
      rw [layout, List.map_cons, List.map_cons, List.intercalate_cons_cons]
      change declaration ++ [';'] ++ ['\n', ' ', ' '] ++ layout (next :: rest) = _
      rw [ih, lines_cons]
      simp

def AreSplittable (declarations : List Text) : Prop :=
  ∀ declaration ∈ declarations, Closed [';'] declaration ∧
    Text.IsTrimmed declaration ∧ declaration ≠ []

theorem Closed.areSplittable (h : Closed marks text) :
    AreSplittable (splitDeclarations text) := fun declaration hmem =>
  ⟨(h.declarations declaration hmem).mono (by simp),
    (mem_splitDeclarations hmem).1, (mem_splitDeclarations hmem).2.1⟩

theorem splitDeclarations_lines (h : AreSplittable declarations) :
    splitDeclarations (lines declarations) = declarations := by
  induction declarations with
  | nil => exact splitDeclarations_nil
  | cons declaration rest ih =>
      obtain ⟨⟨hclosed, htrimmed, hne⟩, hrest⟩ := List.forall_mem_cons.mp h
      rw [lines_cons, splitDeclarations_append isSpace_of_mem_indent hclosed htrimmed hne,
        ih hrest]

/-- Laid out declarations are split into themselves. -/
theorem splitDeclarations_layout (h : AreSplittable declarations) :
    splitDeclarations (layout declarations) = declarations := by
  cases declarations with
  | nil => exact splitDeclarations_nil
  | cons declaration rest =>
      obtain ⟨⟨hclosed, htrimmed, hne⟩, hrest⟩ := List.forall_mem_cons.mp h
      have hgap : ∀ c ∈ ([] : Text), Text.isSpace c = true := by simp
      have hsplit := splitDeclarations_append hgap hclosed htrimmed hne (lines rest)
      rwa [List.nil_append, ← layout_cons, splitDeclarations_lines hrest] at hsplit

theorem exists_layout_concat (declaration : Text) (declarations : List Text) :
    ∃ front, layout (declaration :: declarations) = front ++ [';'] := by
  rw [layout_cons]
  induction declarations generalizing declaration with
  | nil => exact ⟨declaration, rfl⟩
  | cons next rest ih =>
      obtain ⟨front, hfront⟩ := ih next
      refine ⟨declaration ++ ';' :: ['\n', ' ', ' '] ++ front, ?_⟩
      rw [lines_cons, List.append_assoc ['\n', ' ', ' '], hfront]
      simp

theorem isTrimmed_layout (h : AreSplittable declarations) :
    Text.IsTrimmed (layout declarations) := by
  cases declarations with
  | nil => simp [layout, Text.IsTrimmed]
  | cons declaration rest =>
      obtain ⟨_, ⟨hhead, _⟩, hne⟩ := h declaration (by simp)
      obtain ⟨c, tail, rfl⟩ := List.exists_cons_of_ne_nil hne
      constructor
      · rw [layout_cons]
        exact hhead
      · obtain ⟨front, hfront⟩ := exists_layout_concat (c :: tail) rest
        rw [hfront, List.getLast?_concat]
        rintro _ ⟨⟩
        decide

/-- The lines of a block hold the laid out declarations. -/
theorem trim_lines (h : AreSplittable declarations) :
    Text.trim (lines declarations ++ ['\n']) = layout declarations := by
  refine Text.trim_eq_iff.mpr ⟨isTrimmed_layout h, ?_⟩
  cases declarations with
  | nil => exact ⟨[], ['\n'], rfl, by simp, List.all_eq_true.mp (by decide)⟩
  | cons declaration rest =>
      refine ⟨['\n', ' ', ' '], ['\n'], ?_, isSpace_of_mem_indent,
        List.all_eq_true.mp (by decide)⟩
      rw [lines_cons, layout_cons, List.append_assoc ['\n', ' ', ' ']]

theorem closed_lines (h : ∀ declaration ∈ declarations,
    Closed ['}'] declaration) : Closed ['}'] (lines declarations) := by
  have hgap : Closed ['}'] ['\n', ' ', ' '] :=
    .of_spaces (by decide) isSpace_of_mem_indent
  induction declarations with
  | nil => exact .nil
  | cons declaration rest ih =>
      rw [List.forall_mem_cons] at h
      rw [lines_cons]
      exact (hgap.append h.1).append (.char (by decide) (by decide) (ih h.2))

end Cascade.Sheet
