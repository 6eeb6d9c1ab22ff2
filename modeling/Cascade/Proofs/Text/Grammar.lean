import Cascade.Proofs.Text.Enclosed
import Cascade.Proofs.Text.Replace

/-!
# The grammar of strings and groups

Strings and groups are two languages that can be written down without a reader.
A string stands between two quotes of the same kind, a group between two
parentheses, and a group may hold strings and further groups.  In both a
backslash belongs to an escape.  The readers take exactly the texts of these
languages off the front of a text, and no text has two of them at its front.
-/

namespace Cascade.Enclosed

open Text (isLineEnd)

/-! ## The languages -/

/-- The texts of an escape: a backslash and one to six hexadecimal digits, with
the one space that may close them, or a backslash and a single character that
does not end the line. -/
inductive IsEscape : Text → Prop
  | hex {digits space : Text} : digits ≠ [] → digits.length ≤ 6 →
      (∀ c ∈ digits, Ident.isHexDigit c = true) → space = [] ∨ space = [' '] →
      IsEscape ('\\' :: (digits ++ space))
  | char {c : Char} : isLineEnd c = false → IsEscape ['\\', c]

/-- What may stand between two quotes. -/
inductive IsQuoted (quote : Char) : Text → Prop
  | nil : IsQuoted quote []
  | escape {escape rest : Text} : IsEscape escape → IsQuoted quote rest →
      IsQuoted quote (escape ++ rest)
  | char {c : Char} {rest : Text} : c ≠ quote → c ≠ '\\' →
      IsQuoted quote rest → IsQuoted quote (c :: rest)

inductive IsString : Text → Prop
  | quoted {quote : Char} {content : Text} : isQuote quote = true →
      IsQuoted quote content → IsString (quote :: content ++ [quote])

/-- What may stand between two parentheses. -/
inductive IsContent : Text → Prop
  | nil : IsContent []
  | string {string rest : Text} : IsString string → IsContent rest →
      IsContent (string ++ rest)
  | group {inner rest : Text} : IsContent inner → IsContent rest →
      IsContent ('(' :: inner ++ [')'] ++ rest)
  | escape {escape rest : Text} : IsEscape escape → IsContent rest →
      IsContent (escape ++ rest)
  | char {c : Char} {rest : Text} : c ≠ '(' → c ≠ ')' → isQuote c = false →
      c ≠ '\\' → IsContent rest → IsContent (c :: rest)

inductive IsGroup : Text → Prop
  | parentheses {content : Text} : IsContent content →
      IsGroup ('(' :: content ++ [')'])

/-! ## Escapes -/

variable {quote : Char} {input piece rest content : Text}

/-- A reader that takes one character along with a backslash takes every
escape, since the digits and the space behind that character are plain. -/
theorem IsEscape.exists_cons {escape : Text} (h : IsEscape escape) :
    ∃ c more, escape = '\\' :: c :: more ∧ isLineEnd c = false ∧
      ∀ d ∈ more, Nesting.isPlain d = true := by
  cases h with
  | @hex digits space hne _ hdigits hspace =>
      obtain ⟨digit, digits, rfl⟩ := List.exists_cons_of_ne_nil hne
      rw [List.forall_mem_cons] at hdigits
      refine ⟨digit, digits ++ space, rfl,
        Nesting.not_isLineEnd_of_isHexDigit hdigits.1,
        List.forall_mem_append.mpr ⟨fun d hd => ?_, ?_⟩⟩
      · exact Nesting.isPlain_of_isNameChar
          (Ident.isNameChar_of_isHexDigit (hdigits.2 d hd))
      · rcases hspace with rfl | rfl
        · exact List.forall_mem_nil _
        · exact List.forall_mem_singleton.mpr (by decide +kernel)
  | char hend => exact ⟨_, [], rfl, hend, by simp⟩

theorem IsEscape.keepsStack {escape : Text} (h : IsEscape escape) :
    Nesting.KeepsStack escape := by
  obtain ⟨c, more, rfl, hend, hmore⟩ := h.exists_cons
  exact Nesting.keepsStack_escape hend hmore

/-! ## Strings -/

theorem ne_of_isPlain {c : Char} (h : Nesting.isPlain c = true)
    (hquote : isQuote quote = true) : c ≠ quote := by
  rintro rfl
  simp [Nesting.isPlain, hquote] at h

theorem stringContent_plain (hquote : isQuote quote = true)
    (h : ∀ c ∈ content, Nesting.isPlain c = true) (rest : Text) :
    stringContent quote (content ++ rest) =
      (content ++ (stringContent quote rest).1, (stringContent quote rest).2) := by
  induction content with
  | nil => rfl
  | cons c content ih =>
      rw [List.forall_mem_cons] at h
      rw [List.cons_append, Nesting.stringContent_cons
        (Nesting.isPlain_iff.mp h.1).1 (ne_of_isPlain h.1 hquote), ih h.2]
      rfl

/-- What may stand between two quotes is read up to the second one. -/
theorem IsQuoted.stringContent_append (hquote : isQuote quote = true)
    (h : IsQuoted quote content) (rest : Text) :
    stringContent quote (content ++ quote :: rest) = (content, quote :: rest) := by
  induction h with
  | nil => exact Nesting.stringContent_quote (isQuote_ne_backslash hquote) rest
  | escape hescape _ ih =>
      obtain ⟨c, more, rfl, hend, hmore⟩ := hescape.exists_cons
      rw [List.append_assoc, List.cons_append, List.cons_append, stringContent,
        if_neg (by simp [hend]), stringContent_plain hquote hmore, ih]
      rfl
  | char hc hbackslash _ ih =>
      rw [List.cons_append, Nesting.stringContent_cons hbackslash hc, ih]

/-- Whatever is read as the content of a string may stand there. -/
theorem isQuoted_stringContent (quote : Char) (input : Text) :
    IsQuoted quote (stringContent quote input).1 := by
  fun_induction stringContent quote input with
  | case1 => exact .nil
  | case2 => exact .nil
  | case3 => exact .nil
  | case4 c rest hend found ih => exact .escape (.char (by simpa using hend)) ih
  | case5 => exact .nil
  | case6 c rest hlone hescape hc found ih =>
      refine .char hc ?_ ih
      rintro rfl
      cases rest with
      | nil => exact hlone rfl rfl
      | cons next rest => exact hescape next rest rfl rfl

theorem string?_eq_some_iff_isString :
    string? input = some (piece, rest) ↔ IsString piece ∧ input = piece ++ rest := by
  rw [string?_eq_some_iff]
  constructor
  · rintro ⟨quote, content, hquote, hcontent, rfl, hinput⟩
    have hquoted := isQuoted_stringContent quote (content ++ [quote])
    rw [hcontent] at hquoted
    exact ⟨.quoted hquote hquoted, hinput⟩
  · rintro ⟨⟨hquote, hquoted⟩, hinput⟩
    exact ⟨_, _, hquote, hquoted.stringContent_append hquote [], rfl, hinput⟩

theorem IsString.keepsStackOutside {string : Text} (h : IsString string) :
    Nesting.KeepsStackOutside string :=
  Nesting.keepsStackOutside_string
    (string?_eq_some_iff_isString.mpr ⟨h, (List.append_nil _).symm⟩)

/-! ## Groups -/

/-- What may stand between two parentheses closes whatever it opens. -/
theorem IsContent.keepsStackOutside (h : IsContent content) :
    Nesting.KeepsStackOutside content := by
  induction h with
  | nil => exact Nesting.keepsStack_nil.outside
  | string hstring _ ih => exact hstring.keepsStackOutside.append ih
  | group _ _ hinner ih => exact hinner.group.append ih
  | escape hescape _ ih => exact hescape.keepsStack.outside.append ih
  | char hopen hclose hquote hbackslash _ ih =>
      have hplain := Nesting.isPlain_of_not_special hbackslash hopen hclose hquote
      exact (Nesting.keepsStack_char hplain).outside.append ih

theorem isContent_plain (h : plain? input = some (piece, rest))
    (hcontent : IsContent content) : IsContent (piece ++ content) := by
  obtain ⟨c, ⟨rfl, hend⟩ | ⟨rfl, hopen, hclose, hquote, hbackslash⟩⟩ :=
    Nesting.exists_of_plain? h
  · exact .escape (.char hend) hcontent
  · exact .char hopen hclose hquote hbackslash hcontent

/-- Whatever is read as the content of a group may stand there. -/
theorem isContent_groupContent (input : Text) : IsContent (groupContent input).1 := by
  refine Nesting.groupContent_induction .nil .group ?_ isContent_plain input
  intro _ _ _ _ hstring hbehind
  exact .string (string?_eq_some_iff_isString.mp hstring).1 hbehind

/-- A text is balanced if the grammar has it as the content of a group. -/
theorem balanced_iff_isContent : Balanced content ↔ IsContent content := by
  constructor
  · intro h
    have hcontent := isContent_groupContent (content ++ [')'])
    rwa [h] at hcontent
  · exact fun h => balanced_iff_keepsStackOutside.mpr h.keepsStackOutside

theorem group?_eq_some_iff_isGroup :
    group? input = some (piece, rest) ↔ IsGroup piece ∧ input = piece ++ rest := by
  rw [group?_eq_some_iff]
  constructor
  · rintro ⟨content, hbalanced, rfl, hinput⟩
    exact ⟨.parentheses (balanced_iff_isContent.mp hbalanced), hinput⟩
  · rintro ⟨⟨hcontent⟩, hinput⟩
    exact ⟨_, balanced_iff_isContent.mpr hcontent, rfl, hinput⟩

/-- What opens at the front of a text and is closed is a string or a group. -/
theorem enclosed?_eq_some_iff :
    enclosed? input = some (piece, rest) ↔
      (IsString piece ∨ IsGroup piece) ∧ input = piece ++ rest := by
  rw [enclosed?, Option.or_eq_some_iff, string?_eq_some_iff_isString,
    group?_eq_some_iff_isGroup, or_and_right]
  refine or_congr_right (and_iff_right_of_imp ?_)
  rintro ⟨⟨_⟩, rfl⟩
  rfl

/-! ## The readers -/

/-- A reader that takes exactly the texts of a language off the front of a
text. -/
structure Recognises (read : Text → Except Fault (Text × Text))
    (language : Text → Prop) : Prop where
  /-- A text can be taken off the front if and only if the language has it. -/
  exact (piece rest : Text) : read (piece ++ rest) = .ok (piece, rest) ↔ language piece
  /-- No text has two texts of the language at its front. -/
  unique {input piece other : Text} : piece <+: input → other <+: input →
    language piece → language other → piece = other
  /-- A text is refused if and only if it has none. -/
  refuses (input : Text) : (∃ fault, read input = .error fault) ↔
    ∀ piece, piece <+: input → ¬ language piece

theorem recognises_of_iff {read : Text → Except Fault (Text × Text)}
    {language : Text → Prop}
    (h : ∀ input piece rest, read input = .ok (piece, rest) ↔
      language piece ∧ input = piece ++ rest) : Recognises read language where
  exact piece rest := (h _ piece rest).trans (and_iff_left rfl)
  unique := by
    rintro input piece other ⟨rest, rfl⟩ ⟨behind, hother⟩ hpiece hlanguage
    have hread := (h _ piece rest).mpr ⟨hpiece, rfl⟩
    have hread' := (h _ other behind).mpr ⟨hlanguage, hother.symm⟩
    exact congrArg Prod.fst (Except.ok.inj (hread.symm.trans hread'))
  refuses input := by
    constructor
    · rintro ⟨fault, hfault⟩ piece ⟨rest, rfl⟩ hpiece
      cases hfault.symm.trans ((h _ piece rest).mpr ⟨hpiece, rfl⟩)
    · intro hnone
      cases hread : read input with
      | error fault => exact ⟨fault, rfl⟩
      | ok found =>
          obtain ⟨hpiece, hinput⟩ := (h _ _ _).mp hread
          exact absurd hpiece (hnone _ ⟨_, hinput.symm⟩)

theorem readString_eq_ok_iff {found : Text × Text} :
    readString input = .ok found ↔ string? input = some found := by
  unfold readString
  cases string? input with
  | some other => simp
  | none =>
      dsimp only
      split <;> simp

theorem readGroup_eq_ok_iff {found : Text × Text} :
    readGroup input = .ok found ↔ group? input = some found := by
  unfold readGroup
  cases group? input with
  | some other => simp
  | none =>
      dsimp only
      split <;> simp

/-- Strings and groups are read exactly: off the front of a text comes the one
text of the language that stands there, and where none does, because a quote or
a parenthesis is not answered in its place, the reader refuses. -/
theorem recognises_string_group :
    Recognises readString IsString ∧ Recognises readGroup IsGroup :=
  ⟨recognises_of_iff fun _ _ _ => readString_eq_ok_iff.trans string?_eq_some_iff_isString,
    recognises_of_iff fun _ _ _ => readGroup_eq_ok_iff.trans group?_eq_some_iff_isGroup⟩

/-- A quoted parenthesis closes no group, and an open string keeps the group
around it open. -/
example :
    readGroup "(a(b) \")\" \\)) rest".toList =
        .ok ("(a(b) \")\" \\))".toList, " rest".toList) ∧
      readGroup "(a \"b) c".toList = .error (.recoverable .delimiter "\"b) c".toList) := by
  decide +kernel

end Cascade.Enclosed
