import Cascade.Proofs.Ident.Name
import Cascade.Proofs.Text.Grammar

/-!
# Identifiers are read as far as they go

The texts of an identifier are a language of their own: name characters and escapes
in any number and order, but at least one of them.  Such a text can often be cut into
units in several ways, since the digits behind a backslash are name characters as
well.  The reader takes the first unit that fits and makes it as long as it can.  It
never loses by this: a longer escape only takes in characters that would have been
units of their own, or the space behind the whole identifier.
-/

namespace Cascade.Ident

open Enclosed (IsEscape)

/-! ## The language -/

/-- The texts of a unit, whatever stands behind it. -/
inductive IsUnitText : Text → Prop
  | nameChar {c : Char} : isNameChar c = true → IsUnitText [c]
  | escape {text : Text} : IsEscape text → IsUnitText text

/-- The texts of an identifier: one unit behind the other, and at least one. -/
def IsIdentifier (text : Text) : Prop :=
  ∃ units : List Text, units ≠ [] ∧ (∀ unit ∈ units, IsUnitText unit) ∧
    text = units.flatten

/-- The longest text of a language at the front of an input. -/
structure IsLongest (language : Text → Prop) (input piece : Text) : Prop where
  member : language piece
  front : piece <+: input
  longest : ∀ other, other <+: input → language other → other.length ≤ piece.length

variable {input unit rest run name : Text}

/-! ## Units -/

theorem isEscape_of_escapeTail? {tail : Text} (h : escapeTail? input = some (tail, rest)) :
    IsEscape ('\\' :: tail) := by
  rcases escapeTail?_eq_some_iff.mp h with ⟨digits, hne, hsplit, rfl⟩ |
    ⟨hne, hsplit, _⟩ | ⟨c, _, hend, rfl⟩
  · obtain ⟨_, hdigits, hle, _⟩ := splitHex_eq_iff.mp hsplit
    exact .hex hne hle hdigits (.inr rfl)
  · obtain ⟨_, hdigits, hle, _⟩ := splitHex_eq_iff.mp hsplit
    have hescape := IsEscape.hex hne hle hdigits (.inl rfl)
    rw [List.append_nil] at hescape
    exact hescape
  · exact .char hend

theorem isUnitText_of_unit? (h : unit? input = some (unit, rest)) : IsUnitText unit := by
  rcases unit?_eq_some_iff.mp h with ⟨inner, tail, _, rfl, htail⟩ | ⟨c, _, rfl, hname⟩
  · exact .escape (isEscape_of_escapeTail? htail)
  · exact .nameChar hname

theorem escapeTail?_digits {digits space : Text} (hne : digits ≠ [])
    (hle : digits.length ≤ 6) (hdigits : ∀ c ∈ digits, isHexDigit c = true)
    (hspace : space = [] ∨ space = [' ']) :
    escapeTail? (digits ++ space) = some (digits ++ space, []) := by
  rcases hspace with rfl | rfl
  · have hsplit : splitHex 6 (digits ++ []) = (digits, []) :=
      splitHex_append hdigits hle (.inr nofun)
    rw [List.append_nil] at hsplit ⊢
    exact escapeTail?_eq_some_iff.mpr (.inr (.inl ⟨hne, hsplit, nofun⟩))
  · have hsplit : splitHex 6 (digits ++ [' ']) = (digits, [' ']) := by
      apply splitHex_append hdigits hle
      right
      rintro _ ⟨⟩
      decide
    exact escapeTail?_eq_some_iff.mpr (.inl ⟨digits, hne, hsplit, rfl⟩)

/-- A text of a unit is read as one unit if nothing stands behind it. -/
theorem IsUnitText.unit? (h : IsUnitText unit) : unit? unit = some (unit, []) := by
  cases h with
  | nameChar hname => exact unit?_eq_some_iff.mpr (.inr ⟨_, rfl, rfl, hname⟩)
  | escape hescape =>
      apply unit?_eq_some_iff.mpr
      left
      cases hescape with
      | hex hne hle hdigits hspace =>
          exact ⟨_, _, rfl, rfl, escapeTail?_digits hne hle hdigits hspace⟩
      | @char c hend =>
          refine ⟨[c], [c], rfl, rfl, ?_⟩
          by_cases hhex : isHexDigit c = true
          · exact @escapeTail?_digits [c] [] (by simp) (by simp) (by simpa) (.inl rfl)
          · have hsplit : splitHex 6 [c] = ([], [c]) := by
              simp [splitHex, hhex]
            exact escapeTail?_eq_some_iff.mpr (.inr (.inr ⟨c, hsplit, hend, rfl⟩))

/-- In front of another text a unit may only become longer. -/
theorem exists_unit?_append (h : unit? unit = some (unit, [])) (rest : Text) :
    ∃ more behind, rest = more ++ behind ∧
      unit? (unit ++ rest) = some (unit ++ more, behind) := by
  rcases unit_open_or_sealed h with ⟨digits, rfl, hne, hdigits, hle⟩ | hsealed
  · -- The open escape takes what is missing to six digits.
    generalize htaken : splitHex (6 - digits.length) rest = taken
    obtain ⟨more, behind⟩ := taken
    have hsplit := splitHex_digits_append hdigits hle htaken
    obtain ⟨rfl, _⟩ := splitHex_eq_iff.mp htaken
    have hmore : digits ++ more ≠ [] := by simp [hne]
    by_cases hspace : behind.head? = some ' '
    · obtain ⟨tail, rfl⟩ := List.head?_eq_some_iff.mp hspace
      refine ⟨more ++ [' '], tail, by simp, unit?_eq_some_iff.mpr (.inl ⟨_, _, rfl, ?_,
        escapeTail?_eq_some_iff.mpr (.inl ⟨digits ++ more, hmore, hsplit, rfl⟩)⟩)⟩
      simp
    · exact ⟨more, behind, rfl, unit?_eq_some_iff.mpr (.inl ⟨_, _, rfl, rfl,
        escapeTail?_eq_some_iff.mpr (.inr (.inl ⟨hmore, hsplit, hspace⟩))⟩)⟩
  · refine ⟨[], rest, rfl, ?_⟩
    rw [List.append_nil]
    exact hsealed rest

/-! ## Runs of units -/

theorem Run.exists_units {behind : Text} (h : Run behind run) :
    ∃ units : List Text, (∀ unit ∈ units, IsUnitText unit) ∧ run = units.flatten := by
  induction h with
  | nil => exact ⟨[], by simp, rfl⟩
  | @cons unit _ hunit _ ih =>
      obtain ⟨units, hunits, rfl⟩ := ih
      exact ⟨unit :: units, List.forall_mem_cons.mpr ⟨isUnitText_of_unit? hunit, hunits⟩,
        rfl⟩

/-- However a text is cut into units, it is a run of the units that are read. -/
theorem run_flatten {units : List Text} (h : ∀ unit ∈ units, IsUnitText unit) :
    Run [] units.flatten := by
  induction units with
  | nil => exact .nil rfl
  | cons unit units ih =>
      rw [List.forall_mem_cons] at h
      exact .unit_append h.1.unit? (ih h.2)

theorem isName_iff_isIdentifier : IsName name ↔ IsIdentifier name := by
  rw [isName_iff]
  constructor
  · rintro ⟨hrun, hne⟩
    obtain ⟨units, hunits, rfl⟩ := hrun.exists_units
    refine ⟨units, ?_, hunits, rfl⟩
    rintro rfl
    exact hne rfl
  · rintro ⟨units, hne, hunits, rfl⟩
    refine ⟨run_flatten hunits, ?_⟩
    obtain ⟨unit, units, rfl⟩ := List.exists_cons_of_ne_nil hne
    rw [List.flatten_cons]
    exact List.append_ne_nil_of_left_ne_nil
      (unit?_ne_nil (hunits unit List.mem_cons_self).unit?) _

/-- A run at the front of a text is read at least to its end.  Only its last unit can
come out longer, for the others still have the same text behind them. -/
theorem Run.le_scan (h : Run [] run) (rest : Text) : run <+: (scan (run ++ rest)).1 := by
  induction h with
  | nil => exact List.nil_prefix
  | @cons unit tail hunit _ ih =>
      rw [List.append_nil] at hunit
      cases tail with
      | nil =>
          rw [List.append_nil] at hunit ⊢
          obtain ⟨more, behind, _, hlonger⟩ := exists_unit?_append hunit rest
          rw [scan_of_unit? hlonger, List.append_assoc]
          exact List.prefix_append _ _
      | cons c tail =>
          have hsame : unit? (unit ++ (c :: tail ++ rest)) = some (unit, c :: tail ++ rest) :=
            unit?_congr hunit (fun _ hc _ => .inl hc) id
          rw [List.append_assoc, scan_of_unit? hsame]
          exact (List.prefix_append_right_inj unit).mpr ih

/-! ## Main result -/

/-- What is read as an identifier is one, and none at the front of the text is
longer. -/
theorem isLongest_of_read? (h : read? input = some (name, rest)) :
    IsLongest IsIdentifier input name where
  member := by
    apply isName_iff_isIdentifier.mp
    have happend := append_of_read? h
    rw [← happend] at h
    exact (read?_append_iff.mp h).1
  front := ⟨rest, append_of_read? h⟩
  longest := by
    rintro other ⟨behind, rfl⟩ hother
    have hrun := (isName_iff.mp (isName_iff_isIdentifier.mpr hother)).1
    have hscan := hrun.le_scan behind
    rw [(read?_eq_some_iff.mp h).1] at hscan
    exact hscan.length_le

/-- Where an identifier stands at the front of a text, one is read. -/
theorem exists_read?_of_isIdentifier (hfront : name <+: input) (h : IsIdentifier name) :
    ∃ longer behind, read? input = some (longer, behind) := by
  obtain ⟨rest, rfl⟩ := hfront
  obtain ⟨hrun, hne⟩ := isName_iff.mp (isName_iff_isIdentifier.mpr h)
  refine ⟨_, _, read?_eq_some_iff.mpr ⟨rfl, ?_⟩⟩
  intro hnil
  have hscan := hrun.le_scan rest
  rw [hnil] at hscan
  exact hne (List.prefix_nil.mp hscan)

theorem read_eq_ok_iff {found : Text × Text} :
    read input = .ok found ↔ read? input = some found := by
  unfold read
  cases read? input <;> simp

/-- An identifier is read off every text that starts with one, it is the longest of
those at its front, and what follows it is left. -/
theorem read_takes_longest (input : Text) :
    ((∃ fault, read input = .error fault) ↔
        ∀ piece, piece <+: input → ¬ IsIdentifier piece) ∧
      ∀ name rest, read input = .ok (name, rest) ↔
        IsLongest IsIdentifier input name ∧ input = name ++ rest := by
  constructor
  · constructor
    · rintro ⟨fault, hfault⟩ piece hpiece hidentifier
      obtain ⟨longer, behind, hread⟩ := exists_read?_of_isIdentifier hpiece hidentifier
      cases hfault.symm.trans (read_eq_ok_iff.mpr hread)
    · intro hnone
      cases hread : read input with
      | error fault => exact ⟨fault, rfl⟩
      | ok found =>
          have hlongest := isLongest_of_read? (read_eq_ok_iff.mp hread)
          exact absurd hlongest.member (hnone _ hlongest.front)
  · intro name rest
    rw [read_eq_ok_iff]
    constructor
    · intro hread
      exact ⟨isLongest_of_read? hread, (append_of_read? hread).symm⟩
    · rintro ⟨hlongest, rfl⟩
      obtain ⟨longer, behind, hread⟩ :=
        exists_read?_of_isIdentifier hlongest.front hlongest.member
      have hother := isLongest_of_read? hread
      -- Two longest texts at the front of one text have the same length.
      have hlength := Nat.le_antisymm (hother.longest name hlongest.front hlongest.member)
        (hlongest.longest longer hother.front hother.member)
      obtain ⟨rfl, rfl⟩ := List.append_inj (append_of_read? hread).symm hlength
      exact hread

/-- The escape is full with its sixth digit.  The seventh stands for itself, and the
space behind it belongs to nothing. -/
example : read "\\0000312 b".toList = .ok ("\\0000312".toList, " b".toList) := by
  decide +kernel

end Cascade.Ident
