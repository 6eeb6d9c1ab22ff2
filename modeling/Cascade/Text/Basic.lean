/-!
# Texts, blanks and edges

A text is the list of its characters.  Two notions of blank meet in a
stylesheet and must not be confused.  Selector and rule grammars separate
their pieces by four characters only, while the edges of a value are trimmed of
every character with the Unicode property White_Space.
-/

namespace Cascade

/-- Every reader takes a text apart from the front and every printer builds
one, so a text is the list of its characters. -/
abbrev Text := List Char

namespace Text

/-- The four characters that the selector and rule grammars skip. -/
def isBlank (c : Char) : Bool :=
  c == ' ' || c == '\t' || c == '\r' || c == '\n'

/-- The Unicode property White_Space. -/
def isSpace (c : Char) : Bool :=
  let code := c.toNat
  (0x09 ≤ code && code ≤ 0x0D) || code == 0x20 || code == 0x85 ||
    code == 0xA0 || code == 0x1680 || (0x2000 ≤ code && code ≤ 0x200A) ||
    code == 0x2028 || code == 0x2029 || code == 0x202F || code == 0x205F ||
    code == 0x3000

/-- The Unicode category Cc: the controls below the space, delete, and the
controls that follow it. -/
def isControl (c : Char) : Bool :=
  let code := c.toNat
  code ≤ 0x1F || (0x7F ≤ code && code ≤ 0x9F)

def inRanges (ranges : List (Nat × Nat)) (c : Char) : Bool :=
  ranges.any fun (first, last) =>
    decide (first ≤ c.toNat) && decide (c.toNat ≤ last)

/-- An escape cannot reach over the end of a line, and these three characters
end one. -/
def isLineEnd (c : Char) : Bool :=
  c == '\n' || c == '\r' || c == '\x0c'

def skipBlanks (input : Text) : Text :=
  input.dropWhile isBlank

def trimStart (text : Text) : Text :=
  text.dropWhile isSpace

def trimEnd (text : Text) : Text :=
  (text.reverse.dropWhile isSpace).reverse

def trim (text : Text) : Text :=
  trimEnd (trimStart text)

/-- Keywords are compared in ASCII lower case; no other letter is changed. -/
def lower (text : Text) : Text :=
  text.map Char.toLower

/-- Whether a text is one of the given keywords, whatever the case of its
ASCII letters. -/
def isKeyword (keywords : List Text) (text : Text) : Bool :=
  keywords.contains (lower text)

def cutAt? (mark : Char) : Text → Option (Text × Text)
  | [] => none
  | c :: rest =>
      if c = mark then some ([], rest)
      else (cutAt? mark rest).map fun (before, after) => (c :: before, after)

/-- A blank is white space, so what the grammar skips is also trimmed. -/
theorem isSpace_of_isBlank {c : Char} (h : isBlank c = true) :
    isSpace c = true := by
  simp only [isBlank, Bool.or_eq_true, beq_iff_eq] at h
  rcases h with ((rfl | rfl) | rfl) | rfl <;> decide

theorem length_skipBlanks_le (input : Text) :
    (skipBlanks input).length ≤ input.length :=
  (List.dropWhile_sublist isBlank).length_le

@[simp]
theorem skipBlanks_nil : skipBlanks [] = [] := rfl

/-- Skipping stops in front of a character that is no blank. -/
theorem skipBlanks_cons_of_not_isBlank {c : Char} {rest : Text}
    (h : isBlank c = false) : skipBlanks (c :: rest) = c :: rest := by
  simp [skipBlanks, h]

theorem skipBlanks_cons_of_isBlank {c : Char} {rest : Text}
    (h : isBlank c = true) : skipBlanks (c :: rest) = skipBlanks rest := by
  simp [skipBlanks, h]

/-- A cut takes out the first mark and keeps everything else. -/
theorem cutAt?_eq_some_iff {mark : Char} {text before after : Text} :
    cutAt? mark text = some (before, after) ↔
      mark ∉ before ∧ text = before ++ mark :: after := by
  induction text generalizing before with
  | nil => simp [cutAt?]
  | cons c rest ih =>
      by_cases hc : c = mark
      · subst hc
        cases before with
        | nil => simp [cutAt?, eq_comm]
        | cons first before => simp [cutAt?]; grind
      · cases before with
        | nil => simp [cutAt?, hc]
        | cons first before =>
            simp only [cutAt?, hc, if_false, Option.map_eq_some_iff, Prod.exists]
            constructor
            · rintro ⟨inner, tail, hinner, heq⟩
              cases heq
              obtain ⟨hnot, rfl⟩ := ih.mp hinner
              exact ⟨by simp [hnot, Ne.symm hc], rfl⟩
            · rintro ⟨hnot, heq⟩
              simp only [List.cons_append, List.cons.injEq] at heq
              refine ⟨before, after, ih.mpr ⟨?_, heq.2⟩, by rw [heq.1]⟩
              exact fun h => hnot (List.mem_cons_of_mem _ h)

theorem cutAt?_eq_none_iff {mark : Char} {text : Text} :
    cutAt? mark text = none ↔ mark ∉ text := by
  induction text with
  | nil => simp [cutAt?]
  | cons c rest ih =>
      by_cases hc : c = mark
      · simp [cutAt?, hc]
      · simp [cutAt?, hc, ih, Ne.symm hc]

end Text

end Cascade
