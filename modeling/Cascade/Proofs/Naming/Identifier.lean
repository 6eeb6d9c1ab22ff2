import Cascade.Proofs.Ident.Decode
import Cascade.Proofs.Naming.Admission

/-!
# What an identifier written for a name is good for

Every unit that writing a name puts down stands for the character it was put down for,
and no text behind it changes this.  So the name can be read off its written form, two
names never share one, and the identifier ends where it was written to end.  Its front
is that of an identifier also for a reader that knows numbers and custom properties.
-/

namespace Cascade

namespace Ident

/-! ## The name behind a written form -/

theorem decode_escapeChar (c : Char) : decode (escapeChar c) = [c] := by
  unfold escapeChar
  by_cases hname : isNameChar c = true
  · have hc : c ≠ '\\' := by
      rintro rfl
      exact absurd hname (by decide)
    rw [if_pos hname, decode_cons_of_ne hc, decode_nil]
  · have hhex : isHexDigit c = false :=
      Bool.eq_false_iff.mpr (mt isNameChar_of_isHexDigit hname)
    rw [if_neg hname, decode_escaped hhex, decode_nil]

theorem decode_escapeDigit {c : Char} (h : c.isDigit = true) :
    decode (escapeDigit c) = [c] :=
  @of_isDigit (fun c => decode (escapeDigit c) = [c]) (by decide +kernel) c h

theorem decode_escapeFirst (c : Char) (following : Text) :
    decode (escapeFirst c following) = [c] := by
  unfold escapeFirst
  split
  · rename_i hdigit
    exact decode_escapeDigit hdigit
  · split
    · rename_i hhyphen
      simp only [Bool.and_eq_true, decide_eq_true_eq] at hhyphen
      rw [hhyphen.1, decode_escaped (by decide), decode_nil]
    · exact decode_escapeChar c

theorem decode_flatMap_escapeChar {name : Text} (h : ∀ c ∈ name, isWritable c = true) :
    decode (name.flatMap escapeChar) = name := by
  induction name with
  | nil => exact decode_nil
  | cons c rest ih =>
      rw [List.forall_mem_cons] at h
      rw [List.flatMap_cons, decode_unit_append (unit?_escapeChar h.1 _),
        decode_escapeChar, ih h.2, List.singleton_append]

/-- A written form stands for the name it was written for. -/
theorem decode_of_escape? {name text : Text} (h : escape? name = some text) :
    decode text = name := by
  obtain ⟨first, rest, rfl, hfirst, hrest, rfl⟩ := escape?_eq_some_iff.mp h
  rw [decode_unit_append (unit?_escapeFirst hfirst rest _), decode_escapeFirst,
    decode_flatMap_escapeChar hrest, List.singleton_append]

/-! ## The front of a written form -/

/-- A text that starts neither as a number does nor as a custom property does. -/
structure HasIdentFront (text : Text) : Prop where
  digit : ∀ c : Char, c.isDigit = true → ¬ [c] <+: text
  hyphens : ¬ ['-', '-'] <+: text
  hyphenDigit : ∀ c : Char, c.isDigit = true → ¬ ['-', c] <+: text
  hyphen : text ≠ ['-']

/-- The first character decides this, and behind a hyphen the second. -/
theorem hasIdentFront_of_head? {text : Text} (hfirst : ∀ c ∈ text.head?, c.isDigit = false)
    (hhyphen : ∀ rest, text = '-' :: rest → hyphenNeedsEscape rest = false) :
    HasIdentFront text where
  digit := by
    rintro c hc ⟨rest, rfl⟩
    exact absurd (hfirst c rfl) (by simp [hc])
  hyphens := by
    rintro ⟨rest, rfl⟩
    exact absurd (hhyphen ('-' :: rest) rfl) (by simp [hyphenNeedsEscape])
  hyphenDigit := by
    rintro c hc ⟨rest, rfl⟩
    exact absurd (hhyphen (c :: rest) rfl) (by simp [hyphenNeedsEscape, hc])
  hyphen htext := absurd (hhyphen [] htext) (by simp [hyphenNeedsEscape])

/-- The first character is kept only if it is no digit, and a hyphen only if what
follows leaves it one of an identifier. -/
theorem escapeFirst_cases (c : Char) (following : Text) :
    (∃ tail, escapeFirst c following = '\\' :: tail) ∨
      escapeFirst c following = [c] ∧ c.isDigit = false ∧
        (c = '-' → hyphenNeedsEscape following = false) := by
  unfold escapeFirst escapeChar
  split
  · exact .inl ⟨_, rfl⟩
  · rename_i hdigit
    split
    · exact .inl ⟨_, rfl⟩
    · rename_i hhyphen
      split
      · exact .inr ⟨rfl, by simpa using hdigit, by simpa using hhyphen⟩
      · exact .inl ⟨_, rfl⟩

/-- A character behind the first is kept, or comes behind a backslash. -/
theorem hyphenNeedsEscape_flatMap {following : Text}
    (h : hyphenNeedsEscape following = false) :
    hyphenNeedsEscape (following.flatMap escapeChar) = false := by
  cases following with
  | nil => cases h
  | cons next rest =>
      rw [List.flatMap_cons, escapeChar]
      split
      · exact h
      · rfl

theorem hasIdentFront_of_escape? {name text : Text} (h : escape? name = some text) :
    HasIdentFront text := by
  obtain ⟨first, rest, rfl, -, -, rfl⟩ := escape?_eq_some_iff.mp h
  rcases escapeFirst_cases first rest with ⟨tail, htail⟩ | ⟨hkept, hdigit, hhyphen⟩
  · rw [htail]
    apply hasIdentFront_of_head?
    · rintro _ ⟨⟩
      decide
    · rintro _ ⟨⟩
  · rw [hkept]
    apply hasIdentFront_of_head?
    · rintro _ ⟨⟩
      exact hdigit
    · rintro _ ⟨⟩
      exact hyphenNeedsEscape_flatMap (hhyphen rfl)

/-! ## Main result -/

/-- An identifier that does for a name, wherever the name is to stand. -/
structure Represents (text name : Text) : Prop where
  /-- It is read whole, and nothing behind it is drawn in. -/
  read : ∀ rest : Text, Stops rest → Ident.read (text ++ rest) = .ok (text, rest)
  decode : Ident.decode text = name
  front : HasIdentFront text

theorem represents_of_escape? {name text : Text} (h : escape? name = some text) :
    Represents text name where
  read rest hrest := by
    have hclosed : IsClosed text := isClosed_of_escape? h
    rw [Ident.read, hrest.read? hclosed.isName fun _ => hclosed]
  decode := decode_of_escape? h
  front := hasIdentFront_of_escape? h

theorem isEscapable_iff {name : Text} :
    IsEscapable name ↔
      name ≠ [] ∧ ∀ c ∈ name, Text.isSpace c = false ∧ Text.isControl c = false := by
  simp [IsEscapable, isWritable]

end Ident

/-- A name can be written exactly if it is not empty and holds neither white space nor
controls, and what is written represents this name and no other one. -/
theorem represents_escaped (name : Text) :
    ((∃ text, escaped name = .ok text) ↔
        name ≠ [] ∧ ∀ c ∈ name, Text.isSpace c = false ∧ Text.isControl c = false) ∧
      ∀ text, escaped name = .ok text →
        Ident.Represents text name ∧ ∀ other, escaped other = .ok text → other = name := by
  refine ⟨exists_escaped_iff.trans Ident.isEscapable_iff, fun text htext => ?_⟩
  have hwritten := Draft.escape?_of_escaped htext
  refine ⟨Ident.represents_of_escape? hwritten, fun other hother => ?_⟩
  calc
    other = Ident.decode text := (Ident.decode_of_escape? (Draft.escape?_of_escaped hother)).symm
    _ = name := Ident.decode_of_escape? hwritten

/-- The space that closes the escape of a digit is part of the identifier, and the one
behind it is not. -/
theorem represents_escaped_digit :
    ∃ text : Text, escaped ['7'] = .ok text ∧ text = "\\37 ".toList ∧
      Ident.read (text ++ " b".toList) = .ok (text, " b".toList) ∧
      Ident.decode text = ['7'] := by
  have htext : escaped ['7'] = .ok "\\37 ".toList := by decide +kernel
  obtain ⟨hrepresents, _⟩ := (represents_escaped ['7']).2 _ htext
  exact ⟨_, htext, rfl, hrepresents.read _ (by simp [Ident.Stops, Ident.isNameChar]),
    hrepresents.decode⟩

end Cascade
