import Cascade.Ident.Escape
import Cascade.Proofs.Ident.Name
import Cascade.Proofs.Text.Trim

/-!
# Written names read back

Every piece that writing a name puts down is a unit that no following text can
lengthen: a backslash is only written in front of a character that is no
hexadecimal digit, and a leading digit carries its own closing space.  So the
written form of a name is a closed name.
-/

namespace Cascade.Ident

theorem not_isLineEnd_of_isWritable {c : Char} (h : isWritable c = true) :
    Text.isLineEnd c = false := by
  apply Bool.eq_false_iff.mpr
  intro hend
  simp only [Text.isLineEnd, Bool.or_eq_true, beq_iff_eq] at hend
  rcases hend with (rfl | rfl) | rfl <;> revert h <;> decide

/-- A backslash in front of a character that is no hexadecimal digit and ends no
line is a unit of its own. -/
theorem unit?_escaped {c : Char} (hhex : isHexDigit c = false)
    (hend : Text.isLineEnd c = false) (rest : Text) :
    unit? ('\\' :: c :: rest) = some (['\\', c], rest) :=
  unit?_eq_some_iff.mpr (.inl ⟨_, _, rfl, rfl,
    escapeTail?_eq_some_iff.mpr (.inr (.inr ⟨c, splitHex_eq_iff.mpr
      ⟨rfl, by simp, by simp, by simpa using hhex⟩, hend, rfl⟩))⟩)

theorem unit?_escapeChar {c : Char} (h : isWritable c = true) (rest : Text) :
    unit? (escapeChar c ++ rest) = some (escapeChar c, rest) := by
  unfold escapeChar
  by_cases hname : isNameChar c = true
  · rw [if_pos hname]
    exact unit?_eq_some_iff.mpr (.inr ⟨c, rfl, rfl, hname⟩)
  · rw [if_neg hname]
    apply unit?_escaped _ (not_isLineEnd_of_isWritable h)
    exact Bool.eq_false_iff.mpr (mt isNameChar_of_isHexDigit hname)

/-- What is true of the ten digits is true of every digit. -/
theorem of_isDigit {holds : Char → Prop}
    (hdigits : ∀ code < 58, 48 ≤ code → holds (Char.ofNat code)) {c : Char}
    (h : c.isDigit = true) : holds c := by
  simp only [Char.isDigit, ge_iff_le, UInt32.le_iff_toNat_le, Bool.and_eq_true,
    decide_eq_true_eq] at h
  have hc := hdigits c.toNat (Nat.lt_succ_of_le h.2) h.1
  rwa [Char.ofNat_toNat] at hc

/-- The code point of a digit has two hexadecimal digits. -/
theorem toDigits_of_isDigit {c : Char} (h : c.isDigit = true) :
    (Nat.toDigits 16 c.toNat).length = 2 ∧
      ∀ digit ∈ Nat.toDigits 16 c.toNat, isHexDigit digit = true := by
  rw [← List.all_eq_true]
  refine @of_isDigit (fun c => (Nat.toDigits 16 c.toNat).length = 2 ∧
    (Nat.toDigits 16 c.toNat).all isHexDigit = true) ?_ c h
  decide

theorem unit?_escapeDigit {c : Char} (h : c.isDigit = true) (rest : Text) :
    unit? (escapeDigit c ++ rest) = some (escapeDigit c, rest) := by
  obtain ⟨hlength, hdigits⟩ := toDigits_of_isDigit h
  have hsplit : splitHex 6 (Nat.toDigits 16 c.toNat ++ ' ' :: rest) =
      (Nat.toDigits 16 c.toNat, ' ' :: rest) := by
    refine splitHex_eq_iff.mpr ⟨rfl, hdigits, by omega, .inr ?_⟩
    rintro _ ⟨⟩
    decide
  refine unit?_eq_some_iff.mpr (.inl ⟨_, Nat.toDigits 16 c.toNat ++ [' '], rfl,
    rfl, escapeTail?_eq_some_iff.mpr (.inl ⟨_, ?_, ?_, rfl⟩)⟩)
  · exact List.ne_nil_of_length_pos (by omega)
  · simpa using hsplit

theorem unit?_escapeFirst {c : Char} (h : isWritable c = true)
    (following rest : Text) :
    unit? (escapeFirst c following ++ rest) =
      some (escapeFirst c following, rest) := by
  unfold escapeFirst
  split
  · rename_i hdigit
    exact unit?_escapeDigit hdigit rest
  · split
    · exact unit?_escaped (by decide) (by decide) rest
    · exact unit?_escapeChar h rest

/-- How a written name is put together: its first character apart from the others. -/
theorem escape?_eq_some_iff {name text : Text} :
    escape? name = some text ↔
      ∃ first rest, name = first :: rest ∧ isWritable first = true ∧
        (∀ c ∈ rest, isWritable c = true) ∧
        text = escapeFirst first rest ++ rest.flatMap escapeChar := by
  cases name with
  | nil => simp [escape?]
  | cons first rest =>
      rw [escape?, Option.ite_none_right_eq_some, List.all_cons, Bool.and_eq_true,
        List.all_eq_true, Option.some.injEq]
      constructor
      · rintro ⟨⟨hfirst, hrest⟩, rfl⟩
        exact ⟨first, rest, rfl, hfirst, hrest, rfl⟩
      · rintro ⟨_, _, ⟨⟩, hfirst, hrest, rfl⟩
        exact ⟨⟨hfirst, hrest⟩, rfl⟩

theorem run_flatMap_escapeChar {name behind : Text} (h : ∀ c ∈ name, isWritable c = true)
    (hstop : unit? behind = none) : Run behind (name.flatMap escapeChar) := by
  induction name with
  | nil => exact .nil hstop
  | cons c rest ih =>
      rw [List.forall_mem_cons] at h
      rw [List.flatMap_cons]
      exact .cons (unit?_escapeChar h.1 _) (ih h.2)

/-- A written name is a run of units in front of every text that starts no
further one. -/
theorem run_of_escape? {name text : Text} (h : escape? name = some text)
    {behind : Text} (hstop : unit? behind = none) : Run behind text := by
  obtain ⟨first, rest, rfl, hfirst, hrest, rfl⟩ := escape?_eq_some_iff.mp h
  exact .cons (unit?_escapeFirst hfirst rest _) (run_flatMap_escapeChar hrest hstop)

theorem escape?_ne_nil {name text : Text} (h : escape? name = some text) :
    text ≠ [] := by
  obtain ⟨first, rest, rfl, hfirst, -, rfl⟩ := escape?_eq_some_iff.mp h
  intro hnil
  have hunit := unit?_escapeFirst hfirst rest []
  rw [(List.append_eq_nil_iff.mp hnil).1] at hunit
  cases hunit

/-- The written form of a name is a closed name. -/
theorem isClosed_of_escape? {name text : Text} (h : escape? name = some text) :
    IsClosed text :=
  isClosed_iff.mpr ⟨run_of_escape? h (unit?_space []), escape?_ne_nil h⟩

/-! ## The characters of a written name -/

theorem mem_escapeChar {c d : Char} (h : d ∈ escapeChar c) : d = c ∨ d = '\\' := by
  unfold escapeChar at h
  split at h
  · exact .inl (List.mem_singleton.mp h)
  · simpa [or_comm] using h

theorem mem_escapeFirst {c d : Char} {rest : Text} (h : d ∈ escapeFirst c rest) :
    d = c ∨ d = '\\' ∨ d = ' ' ∨ isHexDigit d = true := by
  unfold escapeFirst at h
  split at h
  · rename_i hdigit
    simp only [escapeDigit, List.cons_append, List.mem_cons, List.mem_append,
      List.not_mem_nil, or_false] at h
    rcases h with h | h | h
    · exact .inr (.inl h)
    · exact .inr (.inr (.inr ((toDigits_of_isDigit hdigit).2 d h)))
    · exact .inr (.inr (.inl h))
  · split at h
    · rename_i hhyphen
      simp only [Bool.and_eq_true, decide_eq_true_eq] at hhyphen
      rw [hhyphen.1]
      simp only [List.mem_cons, List.not_mem_nil, or_false] at h
      exact h.elim (fun h => .inr (.inl h)) .inl
    · exact (mem_escapeChar h).imp_right .inl

/-- A written name holds the characters of the name, and besides only what an
escape is made of. -/
theorem mem_of_escape? {name text : Text} (h : escape? name = some text) {c : Char}
    (hc : c ∈ text) : c ∈ name ∨ c = '\\' ∨ c = ' ' ∨ isHexDigit c = true := by
  obtain ⟨first, rest, rfl, -, -, rfl⟩ := escape?_eq_some_iff.mp h
  rcases List.mem_append.mp hc with hc | hc
  · rcases mem_escapeFirst hc with rfl | hc
    · exact .inl List.mem_cons_self
    · exact .inr hc
  · obtain ⟨d, hd, hc⟩ := List.mem_flatMap.mp hc
    rcases mem_escapeChar hc with rfl | rfl
    · exact .inl (List.mem_cons_of_mem _ hd)
    · exact .inr (.inl rfl)

theorem not_isSpace_of_isWritable {c : Char} (h : isWritable c = true) :
    Text.isSpace c = false := by
  unfold isWritable at h
  cases hspace : Text.isSpace c with
  | false => rfl
  | true => simp [hspace] at h

theorem getLast?_escapeChar (c : Char) : (escapeChar c).getLast? = some c := by
  unfold escapeChar
  split <;> rfl

/-- Behind its first character a written name ends as the name does. -/
theorem getLast?_flatMap_escapeChar (name : Text) :
    (name.flatMap escapeChar).getLast? = name.getLast? := by
  induction name with
  | nil => rfl
  | cons c rest ih =>
      rw [List.flatMap_cons, List.getLast?_append, ih, getLast?_escapeChar,
        List.getLast?_cons, Option.or_some]

theorem head?_escapeFirst {c : Char} {rest : Text} :
    (escapeFirst c rest).head? = some c ∨ (escapeFirst c rest).head? = some '\\' := by
  unfold escapeFirst escapeChar
  split
  · exact .inr rfl
  · split
    · exact .inr rfl
    · split
      · exact .inl rfl
      · exact .inr rfl

theorem getLast?_escapeFirst {c : Char} {rest : Text} (hdigit : ¬ c.isDigit = true) :
    (escapeFirst c rest).getLast? = some c := by
  unfold escapeFirst
  rw [if_neg hdigit]
  split
  · rename_i hhyphen
    simp only [Bool.and_eq_true, decide_eq_true_eq] at hhyphen
    rw [hhyphen.1]
    rfl
  · exact getLast?_escapeChar c

/-- No white space stands at the edges of a written name, except for the space
that closes the escape of a single digit. -/
theorem isTrimmed_of_escape? {name text : Text} (h : escape? name = some text) :
    Text.IsTrimmed text ∨ ∃ c : Char, c.isDigit = true ∧ text = escapeDigit c := by
  obtain ⟨first, rest, rfl, hfirst, hrest, rfl⟩ := escape?_eq_some_iff.mp h
  by_cases hdigit : rest = [] ∧ first.isDigit = true
  · obtain ⟨rfl, hdigit⟩ := hdigit
    exact .inr ⟨first, hdigit, by simp [escapeFirst, hdigit]⟩
  · refine .inl ⟨fun c hc => ?_, fun c hc => ?_⟩
    · rw [List.head?_append] at hc
      rcases @head?_escapeFirst first rest with hhead | hhead
      · rw [hhead] at hc
        cases hc
        exact not_isSpace_of_isWritable hfirst
      · rw [hhead] at hc
        cases hc
        decide
    · -- The last character is that of the name.
      rw [List.getLast?_append, getLast?_flatMap_escapeChar] at hc
      cases hlast : rest.getLast? with
      | none =>
          obtain rfl := List.getLast?_eq_none_iff.mp hlast
          rw [getLast?_escapeFirst fun h => hdigit ⟨rfl, h⟩] at hc
          cases hc
          exact not_isSpace_of_isWritable hfirst
      | some last =>
          rw [hlast] at hc
          cases hc
          exact not_isSpace_of_isWritable (hrest _ (List.mem_of_getLast? hlast))

/-- Without the white space at its edges a written name is a name. -/
theorem exists_isTrimmed_of_escape? {name text : Text} (h : escape? name = some text) :
    ∃ short spaces, text = short ++ spaces ∧ IsName short ∧ Text.IsTrimmed short ∧
      ∀ c ∈ spaces, Text.isSpace c = true := by
  rcases isTrimmed_of_escape? h with htrimmed | ⟨c, hdigit, rfl⟩
  · exact ⟨text, [], (List.append_nil _).symm, (isClosed_of_escape? h).isName,
      htrimmed, by simp⟩
  · obtain ⟨hname, htrim⟩ := @of_isDigit (fun c => IsName ('\\' :: Nat.toDigits 16 c.toNat) ∧
      Text.trim ('\\' :: Nat.toDigits 16 c.toNat) = '\\' :: Nat.toDigits 16 c.toNat)
      (by decide +kernel) c hdigit
    exact ⟨_, [' '], rfl, hname, Text.trim_eq_self_iff.mp htrim,
      List.all_eq_true.mp (by decide)⟩

end Cascade.Ident
