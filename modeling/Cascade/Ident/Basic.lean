import Cascade.Fault

/-!
# Identifiers

An identifier is a run of units, each one name character or one escape.  It is
kept as it is written: an escape is recognised but not replaced, so the printer
can give the text back.  Reading takes the longest run, and everything read
together with everything left is the text that was given.
-/

namespace Cascade.Ident

/-- Letters, digits, hyphen, underscore and everything beyond ASCII stand for
themselves in an identifier. -/
def isNameChar (c : Char) : Bool :=
  c.isAlphanum || c == '-' || c == '_' || decide (0x80 ≤ c.toNat)

def isHexDigit (c : Char) : Bool :=
  c.isDigit || ('a' ≤ c && c ≤ 'f') || ('A' ≤ c && c ≤ 'F')

/-- The hexadecimal digits at the front of a text, at most `limit` of them,
and the text behind them. -/
def splitHex : Nat → Text → Text × Text
  | limit + 1, c :: rest =>
      if isHexDigit c then
        let found := splitHex limit rest
        (c :: found.1, found.2)
      else ([], c :: rest)
  | _, input => ([], input)

/-- What an escape covers behind its backslash: one to six hexadecimal digits
with the one space that may close them, or a single character that does not
end the line. -/
def escapeTail? (input : Text) : Option (Text × Text) :=
  match splitHex 6 input with
  | ([], []) => none
  | ([], c :: rest) => if Text.isLineEnd c then none else some ([c], rest)
  | (digits, ' ' :: rest) => some (digits ++ [' '], rest)
  | (digits, rest) => some (digits, rest)

def unit? : Text → Option (Text × Text)
  | [] => none
  | c :: rest =>
      if c = '\\' then
        (escapeTail? rest).map fun (tail, after) => (c :: tail, after)
      else if isNameChar c then some ([c], rest)
      else none

theorem append_of_splitHex (limit : Nat) (input : Text) :
    (splitHex limit input).1 ++ (splitHex limit input).2 = input := by
  fun_induction splitHex limit input with
  | case1 limit c rest hc found ih => exact congrArg (c :: ·) ih
  | case2 => rfl
  | case3 => rfl

theorem append_of_escapeTail? {input tail rest : Text}
    (h : escapeTail? input = some (tail, rest)) : tail ++ rest = input := by
  have happend := append_of_splitHex 6 input
  unfold escapeTail? at h
  split at h <;> grind

/-- A unit and what follows it are the text. -/
theorem append_of_unit? {input unit rest : Text}
    (h : unit? input = some (unit, rest)) : unit ++ rest = input := by
  cases input with
  | nil => simp [unit?] at h
  | cons c text =>
      simp only [unit?] at h
      split at h
      · obtain ⟨⟨tail, after⟩, htail, heq⟩ := Option.map_eq_some_iff.mp h
        cases heq
        simp [append_of_escapeTail? htail]
      · split at h
        · cases h
          rfl
        · cases h

theorem unit?_ne_nil {input unit rest : Text}
    (h : unit? input = some (unit, rest)) : unit ≠ [] := by
  cases input with
  | nil => simp [unit?] at h
  | cons c text =>
      simp only [unit?] at h
      split at h
      · obtain ⟨⟨tail, after⟩, _, heq⟩ := Option.map_eq_some_iff.mp h
        cases heq
        simp
      · split at h
        · cases h
          simp
        · cases h

/-- A unit is never empty, so what follows it is shorter. -/
theorem length_lt_of_unit? {input unit rest : Text}
    (h : unit? input = some (unit, rest)) : rest.length < input.length := by
  have happend := append_of_unit? h
  have hpos := List.length_pos_iff.mpr (unit?_ne_nil h)
  subst happend
  simp only [List.length_append]
  omega

/-- The longest run of units at the front of a text, and what follows it. -/
def scan (input : Text) : Text × Text :=
  match _h : unit? input with
  | none => ([], input)
  | some (unit, rest) =>
      let found := scan rest
      (unit ++ found.1, found.2)
termination_by input.length
decreasing_by exact length_lt_of_unit? _h

theorem scan_of_unit?_eq_none {input : Text} (h : unit? input = none) :
    scan input = ([], input) := by
  rw [scan]
  split <;> simp_all

theorem scan_of_unit? {input unit rest : Text}
    (h : unit? input = some (unit, rest)) :
    scan input = (unit ++ (scan rest).1, (scan rest).2) := by
  rw [scan]
  split <;> simp_all

/-- An identifier takes at least one unit. -/
def read? (input : Text) : Option (Text × Text) :=
  match scan input with
  | ([], _) => none
  | found => some found

/-- Reads an identifier; the fault stands where it should begin. -/
def read (input : Text) : Except Fault (Text × Text) :=
  match read? input with
  | some found => .ok found
  | none => .error (.recoverable .name input)

theorem append_of_scan (input : Text) :
    (scan input).1 ++ (scan input).2 = input := by
  fun_induction scan input with
  | case1 input h => rfl
  | case2 input unit rest h found ih =>
      rw [List.append_assoc, ih, append_of_unit? h]

theorem read?_eq_some_iff {input name rest : Text} :
    read? input = some (name, rest) ↔ scan input = (name, rest) ∧ name ≠ [] := by
  unfold read?
  split
  · rename_i left hscan
    rw [hscan]
    simp only [reduceCtorEq, Prod.mk.injEq, false_iff, not_and]
    exact fun h => fun hname => hname h.1.symm
  · rename_i hfound
    simp only [Option.some.injEq, iff_self_and]
    exact fun h hname => hfound rest (by rw [h, hname])

/-- An identifier and what follows it are the text. -/
theorem append_of_read? {input name rest : Text}
    (h : read? input = some (name, rest)) : name ++ rest = input := by
  have happend := append_of_scan input
  rw [(read?_eq_some_iff.mp h).1] at happend
  exact happend

theorem length_lt_of_read? {input name rest : Text}
    (h : read? input = some (name, rest)) : rest.length < input.length := by
  have hpos := List.length_pos_iff.mpr (read?_eq_some_iff.mp h).2
  rw [← append_of_read? h, List.length_append]
  omega

end Cascade.Ident
