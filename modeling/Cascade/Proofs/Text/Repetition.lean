import Cascade.Proofs.Ident.Longest
import Mathlib.Data.List.TakeWhile

/-!
# Readers that advance, and repetitions of them

A reader advances if whatever it reads leaves a shorter end of the text.  A repetition
takes turns with a reader until it refuses.  A turn that succeeds without using up any
text would be taken again and again, so there a repetition gives up.  With a reader
that advances it never has to, and a loop over a text is the repetition of its turn
from the first turn to the last.
-/

namespace Cascade

variable {α : Type}

/-! ## Readers -/

abbrev Reader (α : Type) := Text → Except Fault (α × Text)

structure IsBehind (rest input : Text) : Prop where
  suffix : rest <:+ input
  shorter : rest.length < input.length

/-- A reader that leaves a shorter end of the text whenever it reads something. -/
def Advances (read : Reader α) : Prop :=
  ∀ input value rest, read input = .ok (value, rest) → IsBehind rest input

variable {rest input middle piece : Text}

theorem isBehind_of_append (happend : piece ++ rest = input) (h : piece ≠ []) :
    IsBehind rest input where
  suffix := ⟨piece, happend⟩
  shorter := by
    have hpos := List.length_pos_iff.mpr h
    rw [← happend, List.length_append]
    omega

theorem ne_nil_of_append (happend : piece ++ rest = input)
    (h : rest.length < input.length) : piece ≠ [] := by
  rintro rfl
  exact Nat.lt_irrefl _ (happend ▸ h)

theorem IsBehind.of_suffix (h : IsBehind middle input) (hrest : rest <:+ middle) :
    IsBehind rest input :=
  ⟨hrest.trans h.suffix, Nat.lt_of_le_of_lt hrest.length_le h.shorter⟩

theorem IsBehind.mono (h : IsBehind rest middle) (hmiddle : middle <:+ input) :
    IsBehind rest input :=
  ⟨h.suffix.trans hmiddle, Nat.lt_of_lt_of_le h.shorter hmiddle.length_le⟩

def Reader.ofOption (read? : Text → Option (α × Text)) : Reader α := fun input =>
  match read? input with
  | some found => .ok found
  | none => .error (.recoverable .delimiter input)

namespace Reader

variable {read? : Text → Option (α × Text)}

theorem ofOption_eq_ok_iff {found : α × Text} :
    ofOption read? input = .ok found ↔ read? input = some found := by
  unfold ofOption
  cases read? input <;> simp

theorem ofOption_eq_error_iff {fault : Fault} :
    ofOption read? input = .error fault ↔
      read? input = none ∧ fault = .recoverable .delimiter input := by
  unfold ofOption
  cases read? input <;> simp [eq_comm]

end Reader

/-! ## Repetitions -/

/-- How a repetition comes to its end. -/
inductive Repetition (α : Type) where
  /-- A turn was refused; the earlier ones are kept. -/
  | ended (values : List α) (rest : Text)
  /-- A turn failed for good. -/
  | failed (fault : Fault)
  /-- A turn succeeded in front of a text and did not make it shorter. -/
  | stalled (input : Text)

namespace Repetition

def cons (value : α) : Repetition α → Repetition α
  | ended values rest => ended (value :: values) rest
  | other => other

def ofResult : Except Fault (List α × Text) → Repetition α
  | .ok (values, rest) => ended values rest
  | .error fault => failed fault

theorem cons_ofResult (value : α) (result : Except Fault (List α × Text)) :
    (ofResult result).cons value =
      ofResult (result.map fun (values, rest) => (value :: values, rest)) := by
  cases result <;> rfl

end Repetition

def repeated (turn : Reader α) (input : Text) : Repetition α :=
  match turn input with
  | .error fault =>
      match fault.severity with
      | .recoverable => .ended [] input
      | .committed => .failed fault
  | .ok (value, rest) =>
      if _h : rest.length < input.length then (repeated turn rest).cons value
      else .stalled input
termination_by input.length

/-- A loop that is the repetition of a turn and never stalls. -/
def Repeats (turn : Reader α) (loop : Text → Except Fault (List α × Text)) : Prop :=
  ∀ input, repeated turn input = .ofResult (loop input)

/-- A loop that collects the text that is taken in the turns of a repetition, which
never stalls. -/
def Collects (turn? : Text → Option (Text × Text)) (loop : Text → Text × Text) : Prop :=
  ∀ input, ∃ pieces, repeated (.ofOption turn?) input = .ended pieces (loop input).2 ∧
    (loop input).1 = pieces.flatten

theorem Advances.repeats {turn : Reader α} {loop : Text → Except Fault (List α × Text)}
    (hturn : Advances turn)
    (hok : ∀ {input value rest}, turn input = .ok (value, rest) →
      loop input = (loop rest).map fun (values, after) => (value :: values, after))
    (herror : ∀ {input fault}, turn input = .error fault →
      loop input = match fault.severity with
        | .recoverable => .ok ([], input)
        | .committed => .error fault) :
    Repeats turn loop := by
  intro input
  fun_induction repeated turn input with
  | case1 input fault hrefused hseverity => rw [herror hrefused, hseverity]; rfl
  | case2 input fault hrefused hseverity => rw [herror hrefused, hseverity]; rfl
  | case3 input value rest hread _ ih => rw [ih, hok hread, Repetition.cons_ofResult]
  | case4 input value rest hread hstalled =>
      exact absurd (hturn _ _ _ hread).shorter hstalled

/-- A reader that takes nothing stalls at once. -/
example : repeated (.ofOption fun input => some ((), input)) ['a'] = .stalled ['a'] := by
  cbv

theorem Advances.suffix_of_repeated {turn : Reader α} (hturn : Advances turn)
    {values : List α} (h : repeated turn input = .ended values rest) : rest <:+ input := by
  fun_induction repeated turn input generalizing values with
  | case1 => cases h; exact List.suffix_rfl
  | case2 => cases h
  | case3 input value after hread _ ih =>
      cases hrest : repeated turn after with
      | ended others last =>
          rw [hrest] at h
          cases h
          exact (ih hrest).trans (hturn _ _ _ hread).suffix
      | failed => rw [hrest] at h; cases h
      | stalled => rw [hrest] at h; cases h
  | case4 => cases h

/-! ## Turns of a loop over a text -/

/-- What takes a piece off the front of a text in a turn of a loop: the piece is not
empty, and the loop goes on behind it. -/
structure IsTurn (turn? : Text → Option (Text × Text)) (loop : Text → Text × Text) :
    Prop where
  append {input piece rest : Text} : turn? input = some (piece, rest) → piece ++ rest = input
  ne_nil {input piece rest : Text} : turn? input = some (piece, rest) → piece ≠ []
  continues {input piece rest : Text} : turn? input = some (piece, rest) →
    loop input = (piece ++ (loop rest).1, (loop rest).2)

section IsTurn

variable {turn? other? : Text → Option (Text × Text)} {loop : Text → Text × Text}

theorem IsTurn.advances (h : IsTurn turn? loop) : Advances (.ofOption turn?) := by
  intro input piece rest hread
  have hfound := Reader.ofOption_eq_ok_iff.mp hread
  exact isBehind_of_append (h.append hfound) (h.ne_nil hfound)

/-- Whichever of two turns takes something, the loop goes on behind it. -/
theorem IsTurn.or (h : IsTurn turn? loop) (hother : IsTurn other? loop) :
    IsTurn (fun input => (turn? input).or (other? input)) loop := by
  have hone {input piece rest : Text}
      (hfound : (turn? input).or (other? input) = some (piece, rest)) :
      turn? input = some (piece, rest) ∨ other? input = some (piece, rest) :=
    (Option.or_eq_some_iff.mp hfound).imp_right And.right
  exact {
    append := fun hfound => (hone hfound).elim h.append hother.append
    ne_nil := fun hfound => (hone hfound).elim h.ne_nil hother.ne_nil
    continues := fun hfound => (hone hfound).elim h.continues hother.continues }

/-- A loop that stops where its turn is refused collects what the turns take. -/
theorem IsTurn.collects (h : IsTurn turn? loop)
    (hstop : ∀ {input}, turn? input = none → loop input = ([], input)) :
    Collects turn? loop := by
  intro input
  fun_induction repeated (Reader.ofOption turn?) input with
  | case1 input fault hread =>
      rw [hstop (Reader.ofOption_eq_error_iff.mp hread).1]
      exact ⟨[], rfl, rfl⟩
  | case2 input fault hread hseverity =>
      rw [(Reader.ofOption_eq_error_iff.mp hread).2] at hseverity
      cases hseverity
  | case3 input piece rest hread _ ih =>
      obtain ⟨pieces, hrest, hpieces⟩ := ih
      rw [h.continues (Reader.ofOption_eq_ok_iff.mp hread), hrest]
      exact ⟨piece :: pieces, rfl, congrArg (piece ++ ·) hpieces⟩
  | case4 input piece rest hread hstalled =>
      exact absurd (h.advances _ _ _ hread).shorter hstalled

/-! ## Runs of characters -/

/-- The characters of some kind at the front of a text, as many as there are but at
least one, and the text behind them. -/
def Text.run? (accepts : Char → Bool) (input : Text) : Option (Text × Text) :=
  match input.takeWhile accepts with
  | [] => none
  | c :: piece => some (c :: piece, input.dropWhile accepts)

variable {accepts : Char → Bool}

theorem Text.run?_eq_some (h : run? accepts input = some (piece, rest)) :
    piece ++ rest = input ∧ piece ≠ [] ∧ ∀ c ∈ piece, accepts c = true := by
  unfold run? at h
  split at h
  · cases h
  · rename_i c text htext
    cases h
    rw [← htext]
    exact ⟨List.takeWhile_append_dropWhile, by simp [htext], fun c => List.mem_takeWhile_imp⟩

theorem Text.run?_eq_none (h : run? accepts input = none) :
    ∀ c ∈ input.head?, accepts c = false := by
  intro c hc
  obtain ⟨rest, rfl⟩ := List.head?_eq_some_iff.mp hc
  apply Bool.eq_false_iff.mpr
  intro haccepted
  simp [run?, haccepted] at h

def TakesChars (accepts : Char → Bool) (loop : Text → Text × Text) : Prop :=
  ∀ c rest, accepts c = true → loop (c :: rest) = (c :: (loop rest).1, (loop rest).2)

theorem TakesChars.append (h : TakesChars accepts loop)
    (hpiece : ∀ c ∈ piece, accepts c = true) (rest : Text) :
    loop (piece ++ rest) = (piece ++ (loop rest).1, (loop rest).2) := by
  induction piece with
  | nil => rfl
  | cons c piece ih =>
      rw [List.forall_mem_cons] at hpiece
      rw [List.cons_append, h c _ hpiece.1, ih hpiece.2]
      rfl

theorem TakesChars.isTurn_run? (h : TakesChars accepts loop) :
    IsTurn (Text.run? accepts) loop where
  append hrun := (Text.run?_eq_some hrun).1
  ne_nil hrun := (Text.run?_eq_some hrun).2.1
  continues hrun := by
    obtain ⟨rfl, _, hpiece⟩ := Text.run?_eq_some hrun
    exact h.append hpiece _

/-! ## Escapes -/

def Ident.escapeUnit? : Text → Option (Text × Text)
  | '\\' :: rest => (escapeTail? rest).map fun (tail, after) => ('\\' :: tail, after)
  | _ => none

theorem Ident.escapeUnit?_eq_some (h : escapeUnit? input = some (piece, rest)) :
    piece ++ rest = input ∧ Enclosed.IsEscape piece := by
  unfold escapeUnit? at h
  split at h
  · obtain ⟨⟨tail, after⟩, htail, heq⟩ := Option.map_eq_some_iff.mp h
    cases heq
    exact ⟨congrArg ('\\' :: ·) (append_of_escapeTail? htail), isEscape_of_escapeTail? htail⟩
  · cases h

/-- Behind a backslash only the end of a line, or of the text, is no escape. -/
theorem Ident.escapeUnit?_eq_none (h : escapeUnit? ('\\' :: input) = none) :
    ∀ c ∈ input.head?, Text.isLineEnd c = true := by
  intro c hc
  obtain ⟨rest, rfl⟩ := List.head?_eq_some_iff.mp hc
  have htail : escapeTail? (c :: rest) = none := Option.map_eq_none_iff.mp h
  by_cases hhex : isHexDigit c = true
  · unfold escapeTail? at htail
    simp only [splitHex, hhex, if_true] at htail
    split at htail <;> simp_all
  · simpa [escapeTail?, splitHex, hhex] using htail

/-- A loop that takes a character along with the backslash in front of it takes an
escape, since the digits and the space behind that character are plain. -/
theorem TakesChars.isTurn_escapeUnit? (hplain : TakesChars Enclosed.Nesting.isPlain loop)
    (hescape : ∀ c rest, Text.isLineEnd c = false →
      loop ('\\' :: c :: rest) = ('\\' :: c :: (loop rest).1, (loop rest).2)) :
    IsTurn Ident.escapeUnit? loop where
  append hunit := (Ident.escapeUnit?_eq_some hunit).1
  ne_nil hunit := by
    obtain ⟨c, more, rfl, _⟩ := (Ident.escapeUnit?_eq_some hunit).2.exists_cons
    exact List.cons_ne_nil _ _
  continues hunit := by
    obtain ⟨rfl, hescaped⟩ := Ident.escapeUnit?_eq_some hunit
    obtain ⟨c, more, rfl, hend, hmore⟩ := hescaped.exists_cons
    rw [List.cons_append, List.cons_append, hescape c _ hend, hplain.append hmore]
    rfl

end IsTurn

/-! ## Identifiers -/

namespace Ident

def nameTurn? (input : Text) : Option (Text × Text) :=
  (Text.run? isNameChar input).or (escapeUnit? input)

theorem unit?_backslash (rest : Text) : unit? ('\\' :: rest) = escapeUnit? ('\\' :: rest) := by
  simp [unit?, escapeUnit?]

theorem unit?_of_escapeUnit? (h : escapeUnit? input = some (piece, rest)) :
    unit? input = some (piece, rest) := by
  unfold escapeUnit? at h
  split at h
  · exact (unit?_backslash _).trans h
  · cases h

theorem takesChars_scan : TakesChars isNameChar scan :=
  fun c _ hc => scan_of_unit? (unit?_eq_some_iff.mpr (.inr ⟨c, rfl, rfl, hc⟩))

theorem isTurn_nameTurn? : IsTurn nameTurn? scan :=
  takesChars_scan.isTurn_run?.or {
    append := fun h => append_of_unit? (unit?_of_escapeUnit? h)
    ne_nil := fun h => unit?_ne_nil (unit?_of_escapeUnit? h)
    continues := fun h => scan_of_unit? (unit?_of_escapeUnit? h) }

theorem unit?_eq_none_of_nameTurn? (h : nameTurn? input = none) : unit? input = none := by
  obtain ⟨hrun, hescape⟩ := Option.or_eq_none_iff.mp h
  cases input with
  | nil => rfl
  | cons c rest =>
      have hc := Text.run?_eq_none hrun c rfl
      by_cases hbackslash : c = '\\'
      · subst hbackslash
        exact (unit?_backslash rest).trans hescape
      · simp [unit?, hbackslash, hc]

/-- An identifier is the repetition of its turns behind the first one. -/
theorem collects_scan : Collects nameTurn? scan :=
  isTurn_nameTurn?.collects fun h => scan_of_unit?_eq_none (unit?_eq_none_of_nameTurn? h)

/-- An identifier takes its first turn before the repetition begins. -/
theorem read_eq_nameTurn? (input : Text) :
    read input =
      match nameTurn? input with
      | none => .error (.recoverable .name input)
      | some (piece, rest) => .ok (piece ++ (scan rest).1, (scan rest).2) := by
  cases hturn : nameTurn? input with
  | none => rw [read, read?_eq_none_of_unit? (unit?_eq_none_of_nameTurn? hturn)]
  | some found =>
      have hne := isTurn_nameTurn?.ne_nil hturn
      exact read_eq_ok_iff.mpr (read?_eq_some_iff.mpr
        ⟨isTurn_nameTurn?.continues hturn, List.append_ne_nil_of_left_ne_nil hne _⟩)

end Ident

/-! ## Strings and groups -/

namespace Enclosed

variable {quote : Char}

/-- One turn of what stands between two quotes: an escape, or a run of characters that
are neither the quote nor a backslash. -/
def quotedTurn? (quote : Char) (input : Text) : Option (Text × Text) :=
  (Ident.escapeUnit? input).or
    (Text.run? (fun c => c != quote && c != '\\') input)

/-- One turn of what stands between two parentheses: a string, a group, an escape, or a
run of characters without a meaning of their own. -/
def groupTurn? (input : Text) : Option (Text × Text) :=
  (string? input).or ((group? input).or
    ((Ident.escapeUnit? input).or (Text.run? Nesting.isPlain input)))

theorem stringContent_escape {c : Char} (h : Text.isLineEnd c = false) (rest : Text) :
    stringContent quote ('\\' :: c :: rest) =
      ('\\' :: c :: (stringContent quote rest).1, (stringContent quote rest).2) := by
  rw [stringContent, if_neg (by simp [h])]

theorem stringContent_stop (h : ∀ c ∈ input.head?, Text.isLineEnd c = true) :
    stringContent quote ('\\' :: input) = ([], '\\' :: input) := by
  cases input with
  | nil => rfl
  | cons c rest => rw [stringContent, if_pos (h c rfl)]

theorem isTurn_quotedTurn? (hquote : isQuote quote = true) :
    IsTurn (quotedTurn? quote) (stringContent quote) := by
  have hinside : TakesChars (fun c => c != quote && c != '\\') (stringContent quote) := by
    intro c rest hc
    simp only [Bool.and_eq_true, bne_iff_ne] at hc
    exact Nesting.stringContent_cons hc.2 hc.1 rest
  have hplain : TakesChars Nesting.isPlain (stringContent quote) := fun c rest hc =>
    Nesting.stringContent_cons (Nesting.isPlain_iff.mp hc).1 (ne_of_isPlain hc hquote) rest
  exact (hplain.isTurn_escapeUnit? fun _ rest hend => stringContent_escape hend rest).or
    hinside.isTurn_run?

theorem collects_stringContent (hquote : isQuote quote = true) :
    Collects (quotedTurn? quote) (stringContent quote) := by
  refine (isTurn_quotedTurn? hquote).collects fun {input} h => ?_
  obtain ⟨hescape, hrun⟩ := Option.or_eq_none_iff.mp h
  cases input with
  | nil => rfl
  | cons c rest =>
      have hc := Text.run?_eq_none hrun c rfl
      simp only [Bool.and_eq_false_iff, bne_eq_false_iff_eq] at hc
      rcases hc with rfl | rfl
      · exact Nesting.stringContent_quote (isQuote_ne_backslash hquote) rest
      · exact stringContent_stop (Ident.escapeUnit?_eq_none hescape)

theorem string?_of_not_isQuote {c : Char} (h : isQuote c = false) (rest : Text) :
    string? (c :: rest) = none := by
  simp [string?, h]

/-- A string, an escape or a character in front of a group's content belongs to it. -/
theorem groupContent_of_piece? (hopen : ∀ rest, input ≠ '(' :: rest)
    (h : piece? input = some (piece, rest)) :
    groupContent input = (piece ++ (groupContent rest).1, (groupContent rest).2) := by
  rw [groupContent_eq, group?_eq_none_of_not_open hopen, Option.none_or, h]

theorem groupContent_escape {c : Char} (h : Text.isLineEnd c = false) (rest : Text) :
    groupContent ('\\' :: c :: rest) =
      ('\\' :: c :: (groupContent rest).1, (groupContent rest).2) := by
  have hpiece : piece? ('\\' :: c :: rest) = some (['\\', c], rest) := by
    rw [piece?, string?_of_not_isQuote (by decide), Option.none_or, plain?,
      if_neg (by simp [h])]
  exact groupContent_of_piece? (by simp) hpiece

theorem takesChars_groupContent : TakesChars Nesting.isPlain groupContent := by
  intro c rest h
  obtain ⟨hbackslash, hopen, hclose, hdouble, hsingle⟩ := Nesting.isPlain_iff.mp h
  have hquote : isQuote c = false := by simp [isQuote, hdouble, hsingle]
  have hpiece : piece? (c :: rest) = some ([c], rest) := by
    rw [piece?, string?_of_not_isQuote hquote, Option.none_or, plain?.eq_def]
    split <;> simp_all
  exact groupContent_of_piece? (fun _ heq => hopen (List.cons.inj heq).1) hpiece

theorem plain?_eq_none (hescape : Ident.escapeUnit? input = none)
    (hrun : Text.run? Nesting.isPlain input = none) : plain? input = none := by
  cases input with
  | nil => rfl
  | cons c rest =>
      have hc := Text.run?_eq_none hrun c rfl
      by_cases hbackslash : c = '\\'
      · subst hbackslash
        cases rest with
        | nil => rfl
        | cons d rest => exact if_pos (Ident.escapeUnit?_eq_none hescape d rfl)
      · rw [plain?.eq_def]
        split <;> simp_all [Nesting.isPlain]

theorem isTurn_string?_groupContent : IsTurn string? groupContent where
  append := append_of_string?
  ne_nil := string?_ne_nil
  continues h := by
    refine groupContent_of_piece? ?_ (Option.or_eq_some_iff.mpr (.inl h))
    rintro behind rfl
    rw [string?_of_not_isQuote (by decide)] at h
    cases h

theorem isTurn_group?_groupContent : IsTurn group? groupContent where
  append := append_of_group?
  ne_nil h := ne_nil_of_append (append_of_group? h) (length_lt_of_group? h)
  continues h := by
    rw [groupContent_eq, h]
    rfl

theorem isTurn_groupTurn? : IsTurn groupTurn? groupContent :=
  isTurn_string?_groupContent.or <| isTurn_group?_groupContent.or <|
    (takesChars_groupContent.isTurn_escapeUnit? fun _ rest hend =>
      groupContent_escape hend rest).or takesChars_groupContent.isTurn_run?

theorem collects_groupContent : Collects groupTurn? groupContent := by
  refine isTurn_groupTurn?.collects fun {input} h => ?_
  simp only [groupTurn?, Option.or_eq_none_iff] at h
  obtain ⟨hstring, hgroup, hescape, hrun⟩ := h
  rw [groupContent_eq, hgroup, piece?, hstring, plain?_eq_none hescape hrun]
  rfl

/-- An open quote ends the repetition, and nothing of it is lost. -/
example : repeated (.ofOption groupTurn?) "a(b)\"c".toList =
    .ended ["a".toList, "(b)".toList] "\"c".toList := by
  cbv

end Enclosed

end Cascade
