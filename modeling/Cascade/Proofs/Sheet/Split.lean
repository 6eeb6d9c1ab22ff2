import Cascade.Proofs.Sheet.Body
import Cascade.Proofs.Text.Grammar

/-!
# How a body is split

A body is split at its semicolons, as far as nothing is open there.  Between the
declarations nothing is lost but semicolons and white space, and a declaration
goes on behind a semicolon only if a string or a group in it is never closed;
then it takes everything to the end of the body.
-/

namespace Cascade.Sheet

open Enclosed (IsString IsGroup enclosed?)

def IsGap (gap : Text) : Prop :=
  ∀ c ∈ gap, c = ';' ∨ Text.isSpace c = true

/-- A text in which a string or a group opens and never closes, behind a front
without a semicolon that closes whatever it opens. -/
def HasUnclosed (text : Text) : Prop :=
  ∃ front opener behind, text = front ++ opener :: behind ∧
    Closed [';'] front ∧ isOpener opener = true ∧
    ∀ piece, piece <+: opener :: behind → ¬ IsString piece ∧ ¬ IsGroup piece

/-- What may stand before a piece of a body: nothing, or a text that closes
whatever it opens, with a semicolon behind it. -/
def IsCut (before : Text) : Prop :=
  before = [] ∨ ∃ closed, Closed [] closed ∧ before = closed ++ [';']

/-- A body as the text before its first declaration, and its declarations with
the text behind each of them. -/
structure Divides (front : Text) (parts : List (Text × Text)) (body : Text) :
    Prop where
  /-- Every character of the body is in its place. -/
  covers : body = front ++ parts.flatMap fun part => part.1 ++ part.2
  front_gap : IsGap front
  gaps : ∀ part ∈ parts, IsGap part.2
  trimmed : ∀ part ∈ parts, part.1 ≠ [] ∧ Text.IsTrimmed part.1
  /-- A declaration in front of another one is whole, and a semicolon ends it. -/
  separated : ∀ part ∈ parts.dropLast,
    upTo ';' part.1 = (part.1, []) ∧ ';' ∈ part.2
  /-- The last declaration is whole as well, or it is the rest of the body, and
  from the start of its piece on something is left open. -/
  last : ∀ part ∈ parts.getLast?, upTo ';' part.1 = (part.1, []) ∨
    ∃ before spaces, (front ++ parts.dropLast.flatMap fun part => part.1 ++ part.2) =
        before ++ spaces ∧
      IsCut before ∧ (∀ c ∈ spaces, Text.isSpace c = true) ∧
      HasUnclosed (spaces ++ part.1 ++ part.2)

variable {mark c : Char} {text front back rest body piece : Text}
  {parts : List (Text × Text)}

theorem IsGap.append (hfront : IsGap front) (hback : IsGap back) :
    IsGap (front ++ back) :=
  List.forall_mem_append.mpr ⟨hfront, hback⟩

theorem isGap_of_spaces (h : ∀ c ∈ text, Text.isSpace c = true) : IsGap text :=
  fun c hc => .inr (h c hc)

/-- A gap stays one behind white space and a semicolon. -/
theorem IsGap.behind (h : IsGap front) (hspaces : ∀ c ∈ text, Text.isSpace c = true) :
    IsGap (text ++ ';' :: front) :=
  (isGap_of_spaces hspaces).append (List.forall_mem_cons.mpr ⟨.inl rfl, h⟩)

/-- Reading up to a mark ends at the mark, or where something opens that is not
closed. -/
theorem eq_mark_or_unclosed_of_upTo (h : (upTo mark text).2 = c :: rest) :
    c = mark ∨ (isOpener c = true ∧ enclosed? (c :: rest) = none) := by
  fun_induction upTo mark text with
  | case1 input piece behind _ found ih => exact ih h
  | case2 => cases h
  | case3 d behind hnone hd =>
      cases h
      rcases Bool.or_eq_true_iff.mp hd with hmark | hopener
      · exact .inl (by simpa using hmark)
      · exact .inr ⟨hopener, hnone⟩
  | case4 d behind _ _ found ih => exact ih h

theorem hasUnclosed_of_upTo (h : upTo ';' text = (front, c :: rest)) (hc : c ≠ ';') :
    HasUnclosed text := by
  have happend := append_of_upTo ';' text
  have hclosed := closed_upTo ';' text
  have hend := eq_mark_or_unclosed_of_upTo (congrArg Prod.snd h)
  rw [h] at happend hclosed
  obtain ⟨hopener, hnone⟩ := hend.resolve_left hc
  refine ⟨front, c, rest, happend.symm, hclosed, hopener, ?_⟩
  rintro piece ⟨behind, hpiece⟩
  have hno (hlanguage : IsString piece ∨ IsGroup piece) : False := by
    have hfound := Enclosed.enclosed?_eq_some_iff.mpr ⟨hlanguage, hpiece.symm⟩
    cases hnone.symm.trans hfound
  exact ⟨fun hstring => hno (.inl hstring), fun hgroup => hno (.inr hgroup)⟩

/-- Where a piece can stand in a body, one can stand behind a closed piece and
its semicolon. -/
theorem IsCut.behind (h : IsCut text) (hpiece : Closed [';'] piece) :
    IsCut (piece ++ ';' :: text) := by
  have hclosed : Closed [] piece := hpiece.mono (by simp)
  rcases h with rfl | ⟨closed, htext, rfl⟩
  · exact .inr ⟨piece, hclosed, rfl⟩
  · exact .inr ⟨piece ++ ';' :: closed,
      hclosed.append (.char (by simp) (by decide) htext), by simp⟩

/-- A body without a semicolon that counts is one declaration, or white space. -/
theorem divides_single (h : Closed [';'] body ∨ HasUnclosed body) :
    ∃ front parts, Divides front parts body ∧
      ([body].map Text.trim).filter (fun declaration => !declaration.isEmpty) =
        parts.map Prod.fst := by
  obtain ⟨before, after, hbody, hbefore, hafter⟩ := Text.exists_trim body
  by_cases hempty : Text.trim body = []
  · refine ⟨body, [], ⟨by simp, ?_, by simp, by simp, by simp, by simp⟩, by simp [hempty]⟩
    exact isGap_of_spaces (Text.trim_eq_nil_iff.mp hempty)
  · refine ⟨before, [(Text.trim body, after)], ⟨?_, isGap_of_spaces hbefore, ?_, ?_, by simp,
      ?_⟩, by simp [hempty]⟩
    · simpa using hbody
    · exact List.forall_mem_singleton.mpr (isGap_of_spaces hafter)
    · exact List.forall_mem_singleton.mpr ⟨hempty, Text.isTrimmed_trim body⟩
    · rintro part ⟨⟩
      rcases h with hclosed | hunclosed
      · exact .inl (upTo_eq_self_iff.mpr hclosed.trim)
      · exact .inr ⟨[], before, by simp, .inl rfl, hbefore, hbody ▸ hunclosed⟩

/-- White space and a semicolon in front of a body make the gap before its first
declaration longer. -/
theorem Divides.skip (h : Divides front parts rest)
    (hspaces : ∀ c ∈ text, Text.isSpace c = true) :
    Divides (text ++ ';' :: front) parts (text ++ ';' :: rest) := by
  refine ⟨?_, h.front_gap.behind hspaces, h.gaps, h.trimmed, h.separated, ?_⟩
  · rw [h.covers]
    simp
  · intro part hpart
    refine (h.last part hpart).imp_right ?_
    rintro ⟨start, spaces, hstart, hcut, hspaced, hunclosed⟩
    exact ⟨text ++ ';' :: start, spaces, by simp [hstart],
      hcut.behind (.of_spaces (by decide) hspaces), hspaced, hunclosed⟩

/-- A closed piece in front of a body is one more declaration. -/
theorem Divides.cons (h : Divides front parts rest)
    (htext : ∀ c ∈ text, Text.isSpace c = true)
    (hback : ∀ c ∈ back, Text.isSpace c = true)
    (hclosed : Closed [';'] (text ++ piece ++ back)) (hne : piece ≠ [])
    (htrimmed : Text.IsTrimmed piece) :
    Divides text ((piece, back ++ ';' :: front) :: parts)
      (text ++ piece ++ back ++ ';' :: rest) := by
  have hwhole : upTo ';' piece = (piece, []) := by
    rw [List.append_assoc] at hclosed
    exact upTo_eq_self_iff.mpr ((hclosed.of_spaces_append htext).of_append_spaces hback)
  refine ⟨?_, isGap_of_spaces htext, List.forall_mem_cons.mpr ⟨h.front_gap.behind hback, h.gaps⟩,
    List.forall_mem_cons.mpr ⟨⟨hne, htrimmed⟩, h.trimmed⟩, ?_, ?_⟩
  · rw [h.covers]
    simp
  · cases parts with
    | nil => simp
    | cons next parts =>
        rw [List.dropLast_cons_of_ne_nil (List.cons_ne_nil _ _)]
        exact List.forall_mem_cons.mpr ⟨⟨hwhole, by simp⟩, h.separated⟩
  · intro part hpart
    cases parts with
    | nil =>
        cases hpart
        exact .inl hwhole
    | cons next parts =>
        rw [List.getLast?_cons_of_ne_nil (List.cons_ne_nil _ _)] at hpart
        refine (h.last part hpart).imp_right ?_
        rintro ⟨start, spaces, hstart, hcut, hspaces, hunclosed⟩
        refine ⟨text ++ piece ++ back ++ ';' :: start, spaces, ?_, hcut.behind hclosed, hspaces,
          hunclosed⟩
        rw [List.dropLast_cons_of_ne_nil (List.cons_ne_nil _ _), List.flatMap_cons]
        simpa using hstart

/-- Behind a closed piece and its semicolon the rest is divided as it would be
alone. -/
theorem Divides.behind (h : Divides front parts rest) (hpiece : Closed [';'] piece) :
    ∃ front' parts', Divides front' parts' (piece ++ ';' :: rest) ∧
      ([piece].map Text.trim).filter (fun declaration => !declaration.isEmpty) ++
        parts.map Prod.fst = parts'.map Prod.fst := by
  by_cases hempty : Text.trim piece = []
  · exact ⟨_, parts, h.skip (Text.trim_eq_nil_iff.mp hempty), by simp [hempty]⟩
  · obtain ⟨before, after, hspaced, hbefore, hafter⟩ := Text.exists_trim piece
    have hcons := h.cons hbefore hafter (hspaced ▸ hpiece) hempty (Text.isTrimmed_trim piece)
    rw [← hspaced] at hcons
    exact ⟨_, _, hcons, by simp [hempty]⟩

/-- Splitting a body loses nothing but semicolons and white space, and splits
only where nothing is open. -/
theorem exists_divides_splitDeclarations (body : Text) :
    ∃ front parts, splitDeclarations body = parts.map Prod.fst ∧
      Divides front parts body := by
  suffices h : ∃ front parts, Divides front parts body ∧
      splitDeclarations body = parts.map Prod.fst from
    h.imp fun _ => Exists.imp fun _ => And.symm
  unfold splitDeclarations
  fun_induction pieces body with
  | case1 body piece hpiece =>
      have happend := append_of_upTo ';' body
      have hclosed := closed_upTo ';' body
      rw [hpiece] at happend hclosed
      rw [List.append_nil] at happend
      exact happend ▸ divides_single (.inl hclosed)
  | case2 body piece rest hpiece ih =>
      have happend := append_of_upTo ';' body
      have hclosed := closed_upTo ';' body
      rw [hpiece] at happend hclosed
      obtain ⟨front, parts, hdivides, hparts⟩ := ih
      obtain ⟨front', parts', hdivides', hparts'⟩ := hdivides.behind hclosed
      rw [← happend]
      refine ⟨front', parts', hdivides', ?_⟩
      rw [← List.singleton_append, List.map_append, List.filter_append, hparts, hparts']
  | case3 body piece c rest hpiece hc =>
      exact divides_single (.inr (hasUnclosed_of_upTo hpiece hc))

/-- The string that is left open takes the semicolons behind it, the group that is
closed keeps its own. -/
example :
    splitDeclarations "src: url(a;b) ; ;content: \"c; top: 0 ".toList =
      ["src: url(a;b)".toList, "content: \"c; top: 0".toList] := by
  decide +kernel

end Cascade.Sheet
