import Cascade.Ident.Decode
import Cascade.Proofs.Ident.Name

/-!
# What two names side by side stand for

A unit stands for one character, so a run of units stands for the characters of its
units.  Two names side by side are one name, but not always of the same units: where
the first ends in a hexadecimal escape with room for another digit, and the second
starts with one, the escape takes that digit in.  Then, and only then, the two do not
stand for what they stand for apart.
-/

namespace Cascade.Ident

/-! ## Equations -/

theorem decode_nil : decode [] = [] := by
  rw [decode]

theorem decode_cons_of_ne {c : Char} (h : c ≠ '\\') (rest : Text) :
    decode (c :: rest) = c :: decode rest := by
  rw [decode, if_neg h]

theorem decode_escaped {c : Char} (h : isHexDigit c = false) (rest : Text) :
    decode ('\\' :: c :: rest) = c :: decode rest := by
  have hsplit : splitHex 6 (c :: rest) = ([], c :: rest) := by simp [splitHex, h]
  rw [decode, if_pos rfl]
  split <;> simp_all

theorem decode_hex {input digits rest : Text} (hne : digits ≠ [])
    (h : splitHex 6 input = (digits, rest)) :
    decode ('\\' :: input) = Char.ofNat (hexNumber digits) :: decode (dropSpace rest) := by
  rw [decode, if_pos rfl]
  split <;> simp_all

theorem dropSpace_of_head? {text : Text} (h : text.head? ≠ some ' ') :
    dropSpace text = text := by
  fun_cases dropSpace text <;> simp_all

/-! ## Units and runs -/

/-- A unit stands for one character, whatever follows it. -/
theorem exists_decode_unit {unit rest : Text}
    (h : unit? (unit ++ rest) = some (unit, rest)) :
    ∃ c, decode unit = [c] ∧ decode (unit ++ rest) = c :: decode rest := by
  rcases unit?_eq_some_iff.mp h with ⟨inner, tail, hinner, rfl, htail⟩ |
    ⟨c, _, rfl, hname⟩
  · obtain rfl : tail ++ rest = inner := by simpa using hinner
    rcases escapeTail?_eq_some_iff.mp htail with ⟨digits, hne, hsplit, rfl⟩ |
      ⟨hne, hsplit, hspace⟩ | ⟨c, hsplit, _, rfl⟩
    · obtain ⟨_, hdigits, hle, hstop⟩ := splitHex_eq_iff.mp hsplit
      have halone : splitHex 6 (digits ++ [' ']) = (digits, [' ']) :=
        splitHex_eq_iff.mpr ⟨rfl, hdigits, hle, hstop⟩
      refine ⟨Char.ofNat (hexNumber digits), ?_, decode_hex hne hsplit⟩
      rw [decode_hex hne halone, dropSpace, decode_nil]
    · obtain ⟨_, hdigits, hle, _⟩ := splitHex_eq_iff.mp hsplit
      have halone : splitHex 6 tail = (tail, []) :=
        splitHex_eq_iff.mpr ⟨(List.append_nil _).symm, hdigits, hle, .inr (by simp)⟩
      refine ⟨Char.ofNat (hexNumber tail), ?_, ?_⟩
      · rw [decode_hex hne halone, dropSpace_of_head? (by simp), decode_nil]
      · rw [List.cons_append, decode_hex hne hsplit, dropSpace_of_head? hspace]
    · obtain ⟨_, _, _, hstop⟩ := splitHex_eq_iff.mp hsplit
      have hc : isHexDigit c = false := by simpa using hstop
      exact ⟨c, by rw [decode_escaped hc, decode_nil], decode_escaped hc rest⟩
  · have hc : c ≠ '\\' := by
      rintro rfl
      exact absurd hname (by decide)
    exact ⟨c, by rw [decode_cons_of_ne hc, decode_nil], decode_cons_of_ne hc rest⟩

theorem decode_unit_append {unit rest : Text}
    (h : unit? (unit ++ rest) = some (unit, rest)) :
    decode (unit ++ rest) = decode unit ++ decode rest := by
  obtain ⟨c, hunit, hwhole⟩ := exists_decode_unit h
  rw [hunit, hwhole, List.singleton_append]

/-! ## Short escapes -/

/-- A text that ends in a hexadecimal escape which is not closed by a space and has
room for another digit. -/
def IsShort (text : Text) : Prop :=
  ∃ front digits, Run [] front ∧ text = front ++ '\\' :: digits ∧ digits ≠ [] ∧
    (∀ c ∈ digits, isHexDigit c = true) ∧ digits.length < 6

def StartsHex (text : Text) : Prop :=
  ∃ c ∈ text.head?, isHexDigit c = true

theorem IsShort.unit_append {unit tail : Text} (hunit : unit? unit = some (unit, []))
    (h : IsShort tail) : IsShort (unit ++ tail) := by
  obtain ⟨front, digits, hfront, rfl, hdigits⟩ := h
  exact ⟨unit ++ front, digits, hfront.unit_append hunit, by simp, hdigits⟩

/-- A unit keeps to itself unless it is short and a digit follows, or a space. -/
theorem unit?_append_of_not_short {unit rest : Text}
    (h : unit? unit = some (unit, [])) (hspace : rest.head? ≠ some ' ')
    (hshort : ¬(IsShort unit ∧ StartsHex rest)) :
    unit? (unit ++ rest) = some (unit, rest) := by
  rcases unit_open_or_sealed h with ⟨digits, rfl, hne, hdigits, hle⟩ | hsealed
  · have hstop : digits.length = 6 ∨ ∀ c ∈ rest.head?, isHexDigit c = false := by
      by_cases hlength : digits.length = 6
      · exact .inl hlength
      · right
        intro c hc
        rw [← Bool.not_eq_true]
        intro hhex
        exact hshort ⟨⟨[], digits, .nil rfl, rfl, hne, hdigits, by omega⟩, c, hc, hhex⟩
    have hsplit : splitHex 6 (digits ++ rest) = (digits, rest) :=
      splitHex_eq_iff.mpr ⟨rfl, hdigits, hle, hstop⟩
    exact unit?_eq_some_iff.mpr (.inl ⟨_, _, rfl, rfl,
      escapeTail?_eq_some_iff.mpr (.inr (.inl ⟨hne, hsplit, hspace⟩))⟩)
  · exact hsealed rest

/-- A run in front of a text that leaves its last unit alone. -/
theorem Run.decode_append {run rest : Text} (h : Run [] run)
    (hspace : rest.head? ≠ some ' ') (hshort : ¬(IsShort run ∧ StartsHex rest)) :
    decode (run ++ rest) = decode run ++ decode rest := by
  induction h with
  | nil => rw [decode_nil, List.nil_append, List.nil_append]
  | @cons unit tail hunit htail ih =>
      rw [List.append_nil] at hunit
      -- Only the last unit has `rest` right behind it.
      cases tail with
      | nil =>
          rw [List.append_nil] at hunit hshort ⊢
          exact decode_unit_append (unit?_append_of_not_short hunit hspace hshort)
      | cons c tail =>
          have halone : unit? (unit ++ []) = some (unit, []) :=
            unit?_congr hunit nofun nofun
          rw [List.append_nil] at halone
          have hwhole : unit? (unit ++ (c :: tail ++ rest)) = some (unit, c :: tail ++ rest) :=
            unit?_congr hunit (fun _ hc _ => .inl hc) id
          rw [List.append_assoc, decode_unit_append hwhole, decode_unit_append hunit,
            ih fun h => hshort ⟨h.1.unit_append halone, h.2⟩, List.append_assoc]

/-! ## Main result -/

theorem decode_digits_append {digits : Text} (h : ∀ c ∈ digits, isHexDigit c = true)
    (rest : Text) : decode (digits ++ rest) = digits ++ decode rest := by
  induction digits with
  | nil => rfl
  | cons c digits ih =>
      rw [List.forall_mem_cons] at h
      have hc : c ≠ '\\' := by
        rintro rfl
        exact absurd h.1 (by decide)
      rw [List.cons_append, decode_cons_of_ne hc, ih h.2, List.cons_append]

theorem length_decode_dropSpace_le (text : Text) :
    (decode (dropSpace text)).length ≤ (decode text).length := by
  fun_cases dropSpace text with
  | case1 rest => simp [decode_cons_of_ne]
  | case2 => exact Nat.le_refl _

theorem not_startsHex_backslash (text : Text) : ¬ StartsHex ('\\' :: text) := by
  rintro ⟨_, ⟨⟩, hhex⟩
  exact absurd hhex (by decide)

/-- A short escape that takes in digits leaves fewer characters. -/
theorem length_decode_append_lt {first second : Text} (hshort : IsShort first)
    (hhex : StartsHex second) :
    (decode (first ++ second)).length < (decode first ++ decode second).length := by
  obtain ⟨front, digits, hfront, rfl, hne, hdigits, hlt⟩ := hshort
  -- The escape takes in `more`, which stands for itself in the second text alone.
  generalize htaken : splitHex (6 - digits.length) second = taken
  obtain ⟨more, rest⟩ := taken
  obtain ⟨rfl, hmore, _, hstop⟩ := splitHex_eq_iff.mp htaken
  have hpos : 0 < more.length := by
    rw [List.length_pos_iff]
    rintro rfl
    obtain ⟨c, hc, hhex⟩ := hhex
    rcases hstop with hstop | hstop
    · exact absurd hstop (by simp; omega)
    · rw [hstop c hc] at hhex
      cases hhex
  have hbackslash (text : Text) : decode (front ++ '\\' :: text) =
      decode front ++ decode ('\\' :: text) :=
    hfront.decode_append (by simp) fun h => not_startsHex_backslash text h.2
  have halone : splitHex 6 digits = (digits, []) :=
    splitHex_eq_iff.mpr ⟨(List.append_nil _).symm, hdigits, Nat.le_of_lt hlt, .inr nofun⟩
  have hjoined := splitHex_digits_append hdigits (Nat.le_of_lt hlt) htaken
  have hfirst : (decode (front ++ '\\' :: digits)).length = (decode front).length + 1 := by
    rw [hbackslash, decode_hex hne halone, dropSpace_of_head? (by simp), decode_nil,
      List.length_append, List.length_singleton]
  have hsecond : (decode (more ++ rest)).length = more.length + (decode rest).length := by
    rw [decode_digits_append hmore, List.length_append]
  have hwhole : (decode (front ++ '\\' :: digits ++ (more ++ rest))).length =
      (decode front).length + ((decode (dropSpace rest)).length + 1) := by
    rw [List.append_assoc, List.cons_append, hbackslash,
      decode_hex (by simp [hne]) hjoined, List.length_append, List.length_cons]
  have hle := length_decode_dropSpace_le rest
  rw [List.length_append, hfirst, hsecond, hwhole]
  omega

/-- Two names side by side stand for what they stand for apart, unless the first ends
in a short escape and the second starts with a hexadecimal digit. -/
theorem IsName.decode_append_iff {first second : Text} (hfirst : IsName first)
    (hsecond : IsName second) :
    decode (first ++ second) = decode first ++ decode second ↔
      ¬(IsShort first ∧ StartsHex second) := by
  constructor
  · intro h hshort
    have hlt := length_decode_append_lt hshort.1 hshort.2
    rw [h] at hlt
    exact Nat.lt_irrefl _ hlt
  · refine (isName_iff.mp hfirst).1.decode_append ?_
    obtain ⟨c, rest, rfl, hc⟩ := hsecond.exists_cons
    rintro ⟨⟩
    rcases hc with hc | hc <;> exact absurd hc (by decide)

end Cascade.Ident
