import Cascade.Ident.Basic

/-!
# Where an identifier ends

An identifier is read as far as it goes, so the text behind it decides where it
ends.  One character is enough.  A name character or an escape goes on with the
identifier, and a space is drawn into a hexadecimal escape that is still open.
Hence a name that ends in front of one space ends in front of every text that
starts no further unit, and such names are called closed.
-/

namespace Cascade.Ident

/-! ## One unit -/

/-- Taking digits ends at the limit or in front of what is no digit. -/
theorem splitHex_spec (limit : Nat) (input : Text) :
    (∀ c ∈ (splitHex limit input).1, isHexDigit c = true) ∧
      (splitHex limit input).1.length ≤ limit ∧
      ((splitHex limit input).1.length = limit ∨
        ∀ c ∈ (splitHex limit input).2.head?, isHexDigit c = false) := by
  fun_induction splitHex limit input with
  | case1 limit c rest hc found ih =>
      obtain ⟨hhex, hle, hstop⟩ := ih
      refine ⟨List.forall_mem_cons.mpr ⟨hc, hhex⟩, Nat.succ_le_succ hle, ?_⟩
      exact hstop.imp_left (congrArg Nat.succ)
  | case2 limit c rest hc => simp [hc]
  | case3 limit input hno =>
      cases limit with
      | zero => simp
      | succ limit =>
          cases input with
          | nil => simp
          | cons c rest => exact (hno limit c rest rfl rfl).elim

theorem splitHex_append {limit : Nat} {digits rest : Text}
    (hhex : ∀ c ∈ digits, isHexDigit c = true) (hle : digits.length ≤ limit)
    (hstop : digits.length = limit ∨ ∀ c ∈ rest.head?, isHexDigit c = false) :
    splitHex limit (digits ++ rest) = (digits, rest) := by
  induction digits generalizing limit with
  | nil =>
      cases limit with
      | zero => rfl
      | succ limit =>
          cases rest with
          | nil => rfl
          | cons c rest =>
              have hc : isHexDigit c = false :=
                (hstop.resolve_left (by simp)) c rfl
              simp [splitHex, hc]
  | cons digit digits ih =>
      cases limit with
      | zero => cases hle
      | succ limit =>
          rw [List.forall_mem_cons] at hhex
          have hrest := ih hhex.2 (Nat.le_of_succ_le_succ hle)
            (hstop.imp_left Nat.succ.inj)
          rw [List.cons_append, splitHex, if_pos hhex.1, hrest]

/-- The hexadecimal digits of an escape are as many as there are, up to the
limit. -/
theorem splitHex_eq_iff {limit : Nat} {input digits rest : Text} :
    splitHex limit input = (digits, rest) ↔
      input = digits ++ rest ∧ (∀ c ∈ digits, isHexDigit c = true) ∧
        digits.length ≤ limit ∧
        (digits.length = limit ∨ ∀ c ∈ rest.head?, isHexDigit c = false) := by
  constructor
  · intro h
    have happend := append_of_splitHex limit input
    have hspec := splitHex_spec limit input
    rw [h] at happend hspec
    exact ⟨happend.symm, hspec⟩
  · rintro ⟨rfl, hhex, hle, hstop⟩
    exact splitHex_append hhex hle hstop

/-- Digits in front of a text are taken first, and from the text as many as there is
still room for. -/
theorem splitHex_digits_append {limit : Nat} {digits input more rest : Text}
    (hdigits : ∀ c ∈ digits, isHexDigit c = true) (hle : digits.length ≤ limit)
    (h : splitHex (limit - digits.length) input = (more, rest)) :
    splitHex limit (digits ++ input) = (digits ++ more, rest) := by
  obtain ⟨rfl, hmore, hmorele, hstop⟩ := splitHex_eq_iff.mp h
  refine splitHex_eq_iff.mpr ⟨(List.append_assoc _ _ _).symm, ?_, ?_, ?_⟩
  · exact List.forall_mem_append.mpr ⟨hdigits, hmore⟩
  · rw [List.length_append]
    omega
  · rw [List.length_append]
    exact hstop.imp_left (by omega)

/-- The three forms of an escape behind its backslash. -/
theorem escapeTail?_eq_some_iff {input tail rest : Text} :
    escapeTail? input = some (tail, rest) ↔
      (∃ digits, digits ≠ [] ∧ splitHex 6 input = (digits, ' ' :: rest) ∧
        tail = digits ++ [' ']) ∨
      (tail ≠ [] ∧ splitHex 6 input = (tail, rest) ∧ rest.head? ≠ some ' ') ∨
      ∃ c, splitHex 6 input = ([], c :: rest) ∧ Text.isLineEnd c = false ∧
        tail = [c] := by
  constructor
  · intro h
    unfold escapeTail? at h
    split at h
    · cases h
    · rename_i c after hsplit
      split at h
      · cases h
      · rename_i hend
        cases h
        exact .inr (.inr ⟨c, hsplit, by simpa using hend, rfl⟩)
    · rename_i digits after hne hsplit
      cases h
      exact .inl ⟨digits, hne, hsplit, rfl⟩
    · rename_i digits after hnil hcons hspace hsplit
      cases h
      refine .inr (.inl ⟨?_, hsplit, ?_⟩)
      · rintro rfl
        cases rest with
        | nil => exact hnil rfl rfl
        | cons c after => exact hcons c after rfl rfl
      · intro hhead
        obtain ⟨after, rfl⟩ := List.head?_eq_some_iff.mp hhead
        exact hspace after rfl
  · rintro (⟨digits, hne, hsplit, rfl⟩ | ⟨hne, hsplit, hspace⟩ |
      ⟨c, hsplit, hend, rfl⟩)
    · obtain ⟨digit, digits, rfl⟩ := List.exists_cons_of_ne_nil hne
      simp [escapeTail?, hsplit]
    · obtain ⟨digit, digits, rfl⟩ := List.exists_cons_of_ne_nil hne
      cases rest with
      | nil => simp [escapeTail?, hsplit]
      | cons c after =>
          have hc : c ≠ ' ' := by simpa using hspace
          simp [escapeTail?, hsplit, hc]
    · simp [escapeTail?, hsplit, hend]

/-- What an escape covers does not depend on the text behind it, unless that
text could be drawn in where the other one was not. -/
theorem escapeTail?_congr {tail behind other : Text}
    (h : escapeTail? (tail ++ behind) = some (tail, behind))
    (hhex : ∀ c ∈ other.head?, isHexDigit c = true →
      behind.head? = some c ∨ behind.head? = some ' ')
    (hspace : other.head? = some ' ' → behind.head? = some ' ') :
    escapeTail? (tail ++ other) = some (tail, other) := by
  rw [escapeTail?_eq_some_iff] at h ⊢
  rcases h with ⟨digits, hne, hsplit, rfl⟩ | ⟨hne, hsplit, hopen⟩ |
    ⟨c, hsplit, hend, rfl⟩
  · rw [splitHex_eq_iff] at hsplit
    obtain ⟨_, hdigits, hle, hstop⟩ := hsplit
    left
    exact ⟨digits, hne, splitHex_eq_iff.mpr ⟨by simp, hdigits, hle, hstop⟩, rfl⟩
  · rw [splitHex_eq_iff] at hsplit
    obtain ⟨_, hdigits, hle, hstop⟩ := hsplit
    right; left
    refine ⟨hne, splitHex_eq_iff.mpr ⟨rfl, hdigits, hle, ?_⟩, mt hspace hopen⟩
    rcases hstop with hfull | hstop
    · exact .inl hfull
    · right
      intro c hc
      apply Bool.eq_false_iff.mpr
      intro hdigit
      rcases hhex c hc hdigit with hsame | hspaced
      · rw [hstop c hsame] at hdigit
        cases hdigit
      · exact hopen hspaced
  · rw [splitHex_eq_iff] at hsplit
    right; right
    refine ⟨c, splitHex_eq_iff.mpr ⟨rfl, by simp, by simp, ?_⟩, hend, rfl⟩
    simpa using hsplit.2.2.2

/-- The form of a unit: an escape, or one name character. -/
theorem unit?_eq_some_iff {input unit rest : Text} :
    unit? input = some (unit, rest) ↔
      (∃ inner tail, input = '\\' :: inner ∧ unit = '\\' :: tail ∧
        escapeTail? inner = some (tail, rest)) ∨
      ∃ c, input = c :: rest ∧ unit = [c] ∧ isNameChar c = true := by
  constructor
  · intro h
    cases input with
    | nil => cases h
    | cons c input =>
        simp only [unit?] at h
        split at h
        · rename_i hc
          obtain ⟨⟨tail, after⟩, htail, heq⟩ := Option.map_eq_some_iff.mp h
          cases heq
          exact .inl ⟨input, tail, by rw [hc], by rw [hc], htail⟩
        · split at h
          · rename_i hname
            cases h
            exact .inr ⟨c, rfl, rfl, hname⟩
          · cases h
  · rintro (⟨inner, tail, rfl, rfl, htail⟩ | ⟨c, rfl, rfl, hname⟩)
    · simp [unit?, htail]
    · have hc : c ≠ '\\' := by
        rintro rfl
        exact absurd hname (by decide)
      simp [unit?, hc, hname]

/-- A unit ends where it ends because of one character behind it. -/
theorem unit?_congr {unit behind other : Text}
    (h : unit? (unit ++ behind) = some (unit, behind))
    (hhex : ∀ c ∈ other.head?, isHexDigit c = true →
      behind.head? = some c ∨ behind.head? = some ' ')
    (hspace : other.head? = some ' ' → behind.head? = some ' ') :
    unit? (unit ++ other) = some (unit, other) := by
  rw [unit?_eq_some_iff] at h ⊢
  rcases h with ⟨inner, tail, hinner, rfl, htail⟩ | ⟨c, hc, rfl, hname⟩
  · left
    obtain rfl : tail ++ behind = inner := by simpa using hinner
    exact ⟨tail ++ other, tail, rfl, rfl, escapeTail?_congr htail hhex hspace⟩
  · right
    exact ⟨c, rfl, rfl, hname⟩

theorem isNameChar_of_isAlpha {c : Char} (h : c.isAlpha = true) :
    isNameChar c = true := by
  simp [isNameChar, Char.isAlphanum, h]

theorem isNameChar_of_isHexDigit {c : Char} (h : isHexDigit c = true) :
    isNameChar c = true := by
  have hrange : c.isDigit = true ∨ (97 ≤ c.toNat ∧ c.toNat ≤ 102) ∨
      (65 ≤ c.toNat ∧ c.toNat ≤ 70) := by
    simpa [isHexDigit, Char.le_def, UInt32.le_iff_toNat_le, or_assoc] using h
  rcases hrange with hdigit | hlower | hupper
  · simp [isNameChar, Char.isAlphanum, hdigit]
  · have hletter : c.isLower = true := by
      change (decide ('a'.val ≤ c.val) && decide (c.val ≤ 'z'.val)) = true
      simp only [Bool.and_eq_true, decide_eq_true_eq, UInt32.le_iff_toNat_le]
      exact ⟨hlower.1, Nat.le_trans hlower.2 (by decide)⟩
    exact isNameChar_of_isAlpha (Bool.or_eq_true_iff.mpr (.inr hletter))
  · have hletter : c.isUpper = true := by
      change decide ('A'.val ≤ c.val ∧ c.val ≤ 'Z'.val) = true
      simp only [decide_eq_true_eq, UInt32.le_iff_toNat_le]
      exact ⟨hupper.1, Nat.le_trans hupper.2 (by decide)⟩
    exact isNameChar_of_isAlpha (Bool.or_eq_true_iff.mpr (.inl hletter))

/-- A text that starts no unit does not start with a hexadecimal digit. -/
theorem isHexDigit_eq_false_of_unit?_eq_none {text : Text}
    (h : unit? text = none) : ∀ c ∈ text.head?, isHexDigit c = false := by
  intro c hc
  obtain ⟨rest, rfl⟩ := List.head?_eq_some_iff.mp hc
  apply Bool.eq_false_iff.mpr
  intro hdigit
  have hunit : unit? (c :: rest) = some ([c], rest) :=
    unit?_eq_some_iff.mpr (.inr ⟨c, rfl, rfl, isNameChar_of_isHexDigit hdigit⟩)
  rw [h] at hunit
  cases hunit

/-! ## A run of units -/

/-- A text that is scanned as a run of units if `behind` is the text that
follows it. -/
inductive Run (behind : Text) : Text → Prop
  | nil : unit? behind = none → Run behind []
  | cons {unit tail : Text} :
      unit? (unit ++ (tail ++ behind)) = some (unit, tail ++ behind) →
      Run behind tail → Run behind (unit ++ tail)

theorem run_scan (input : Text) : Run (scan input).2 (scan input).1 := by
  fun_induction scan input with
  | case1 input h => exact .nil h
  | case2 input unit rest h found ih =>
      refine .cons ?_ ih
      rwa [append_of_scan rest, append_of_unit? h]

theorem run_iff {behind run : Text} :
    Run behind run ↔ scan (run ++ behind) = (run, behind) := by
  constructor
  · intro h
    induction h with
    | nil hstop => exact scan_of_unit?_eq_none hstop
    | cons hunit _ ih => rw [List.append_assoc, scan_of_unit? hunit, ih]
  · intro h
    have hrun := run_scan (run ++ behind)
    rwa [h] at hrun

theorem Run.unit?_eq_none {behind run : Text} (h : Run behind run) :
    unit? behind = none := by
  induction h with
  | nil hstop => exact hstop
  | cons _ _ ih => exact ih

/-- The end of a run is decided by the character behind it. -/
theorem Run.congr {behind other run : Text} (h : Run behind run)
    (hstop : unit? other = none)
    (hspace : other.head? = some ' ' → behind.head? = some ' ') :
    Run other run := by
  induction h with
  | nil => exact .nil hstop
  | @cons unit tail hunit _ ih =>
      refine .cons (unit?_congr hunit ?_ ?_) ih
      · intro c hc hdigit
        cases tail with
        | nil =>
            rw [isHexDigit_eq_false_of_unit?_eq_none hstop c hc] at hdigit
            cases hdigit
        | cons first tail => exact .inl hc
      · cases tail with
        | nil => exact hspace
        | cons first tail => exact id

/-! ## Joining runs -/

/-- The end of a unit is open behind hexadecimal digits, and sealed in every
other case. -/
theorem unit_open_or_sealed {unit : Text} (h : unit? unit = some (unit, [])) :
    (∃ digits, unit = '\\' :: digits ∧ digits ≠ [] ∧
      (∀ c ∈ digits, isHexDigit c = true) ∧ digits.length ≤ 6) ∨
    ∀ other, unit? (unit ++ other) = some (unit, other) := by
  rcases unit?_eq_some_iff.mp h with ⟨inner, tail, rfl, heq, htail⟩ |
    ⟨c, rfl, _, hname⟩
  · obtain rfl : inner = tail := by simpa using heq
    rcases escapeTail?_eq_some_iff.mp htail with ⟨digits, hne, hsplit, rfl⟩ |
      ⟨hne, hsplit, _⟩ | ⟨c, hsplit, hend, rfl⟩
    · right
      intro other
      obtain ⟨_, hdigits, hle, hstop⟩ := splitHex_eq_iff.mp hsplit
      have hsplit' : splitHex 6 (digits ++ [' '] ++ other) =
          (digits, ' ' :: other) :=
        splitHex_eq_iff.mpr ⟨by simp, hdigits, hle, hstop⟩
      exact unit?_eq_some_iff.mpr (.inl ⟨_, _, rfl, rfl,
        escapeTail?_eq_some_iff.mpr (.inl ⟨digits, hne, hsplit', rfl⟩)⟩)
    · obtain ⟨_, hdigits, hle, _⟩ := splitHex_eq_iff.mp hsplit
      exact .inl ⟨inner, rfl, hne, hdigits, hle⟩
    · right
      intro other
      obtain ⟨_, _, _, hstop⟩ := splitHex_eq_iff.mp hsplit
      have hsplit' : splitHex 6 ([c] ++ other) = ([], c :: other) :=
        splitHex_eq_iff.mpr ⟨by simp, by simp, by simp, by simpa using hstop⟩
      exact unit?_eq_some_iff.mpr (.inl ⟨_, _, rfl, rfl,
        escapeTail?_eq_some_iff.mpr (.inr (.inr ⟨c, hsplit', hend, rfl⟩))⟩)
  · right
    intro other
    exact unit?_eq_some_iff.mpr (.inr ⟨c, rfl, rfl, hname⟩)

/-- A space starts no unit. -/
theorem unit?_space (rest : Text) : unit? (' ' :: rest) = none := by
  simp [unit?, show isNameChar ' ' = false by decide]

/-- Name characters at the front of a run can be taken away. -/
theorem Run.of_append {behind chars run : Text} (h : Run behind (chars ++ run))
    (hchars : ∀ c ∈ chars, isNameChar c = true) : Run behind run := by
  induction chars with
  | nil => exact h
  | cons c chars ih =>
      have hunit : unit? (c :: (chars ++ run ++ behind)) =
          some ([c], chars ++ run ++ behind) :=
        unit?_eq_some_iff.mpr (.inr ⟨c, rfl, rfl, hchars c (by simp)⟩)
      apply ih _ fun c hc => hchars c (List.mem_cons_of_mem _ hc)
      rw [run_iff, List.cons_append, List.cons_append, scan_of_unit? hunit,
        Prod.mk.injEq] at h
      exact run_iff.mpr (Prod.ext (List.cons.inj h.1).2 h.2)

/-- A unit in front of a run takes at most some digits from it. -/
theorem Run.unit_append {unit run : Text} (hunit : unit? unit = some (unit, []))
    (hrun : Run [] run) : Run [] (unit ++ run) := by
  rcases unit_open_or_sealed hunit with ⟨digits, rfl, hne, hdigits, hle⟩ | hsealed
  · -- The open escape takes what is missing to six digits.
    generalize htaken : splitHex (6 - digits.length) run = taken
    obtain ⟨more, rest⟩ := taken
    obtain ⟨rfl, hmore, _⟩ := splitHex_eq_iff.mp htaken
    have hrest : Run [] rest :=
      hrun.of_append fun c hc => isNameChar_of_isHexDigit (hmore c hc)
    have hspace : rest.head? ≠ some ' ' := by
      intro hhead
      obtain ⟨tail, rfl⟩ := List.head?_eq_some_iff.mp hhead
      rw [run_iff, List.append_nil,
        scan_of_unit?_eq_none (unit?_space tail)] at hrest
      cases hrest
    have hsplit := splitHex_digits_append hdigits hle htaken
    have hjoined : unit? ('\\' :: (digits ++ (more ++ rest))) =
        some ('\\' :: (digits ++ more), rest) :=
      unit?_eq_some_iff.mpr (.inl ⟨_, _, rfl, rfl,
        escapeTail?_eq_some_iff.mpr (.inr (.inl ⟨by simp [hne], hsplit, hspace⟩))⟩)
    have hwhole : '\\' :: digits ++ (more ++ rest) =
        '\\' :: (digits ++ more) ++ rest := by simp
    rw [hwhole]
    exact .cons (by simpa using hjoined) hrest
  · exact .cons (by simpa using hsealed run) hrun

/-- Two runs make one, even if an escape at the end of the first draws in
digits from the second. -/
theorem Run.append {first second : Text} (hfirst : Run [] first)
    (hsecond : Run [] second) : Run [] (first ++ second) := by
  induction hfirst with
  | nil => exact hsecond
  | @cons unit tail hunit _ ih =>
      rw [List.append_nil] at hunit
      rw [List.append_assoc]
      cases tail with
      | nil =>
          rw [List.append_nil] at hunit
          exact .unit_append hunit hsecond
      | cons c tail =>
          exact .cons (unit?_congr hunit (fun _ hc _ => .inl hc) id) ih

/-- Behind a run a space either stays where it is, whatever follows, or closes
the run's last escape and becomes part of it. -/
theorem Run.append_space {run : Text} (h : Run [] run) :
    (∀ rest, Run (' ' :: rest) run) ∨
      ∀ rest behind, Run behind rest → Run behind (run ++ ' ' :: rest) := by
  induction h with
  | nil => exact .inl fun rest => .nil (unit?_space rest)
  | @cons unit tail hunit _ ih =>
      rw [List.append_nil] at hunit
      cases tail with
      | cons c tail =>
          have hfirst (other : Text) : unit? (unit ++ (c :: tail ++ other)) =
              some (unit, c :: tail ++ other) :=
            unit?_congr hunit (fun _ hc _ => .inl hc) id
          rcases ih with hstays | htaken
          · exact .inl fun rest => .cons (hfirst _) (hstays rest)
          · right
            intro rest behind hrest
            rw [List.append_assoc]
            refine .cons ?_ (htaken rest behind hrest)
            rw [List.append_assoc]
            exact hfirst _
      | nil =>
          rw [List.append_nil] at hunit ⊢
          rcases unit_open_or_sealed hunit with
            ⟨digits, rfl, hne, hdigits, hle⟩ | hsealed
          · right
            intro rest behind hrest
            have hstop : ∀ c ∈ (' ' :: (rest ++ behind)).head?,
                isHexDigit c = false := by
              rintro _ ⟨⟩
              decide
            have hsplit : splitHex 6 (digits ++ ' ' :: (rest ++ behind)) =
                (digits, ' ' :: (rest ++ behind)) :=
              splitHex_eq_iff.mpr ⟨rfl, hdigits, hle, .inr hstop⟩
            have hclosed : unit? ('\\' :: (digits ++ ' ' :: (rest ++ behind))) =
                some ('\\' :: (digits ++ [' ']), rest ++ behind) :=
              unit?_eq_some_iff.mpr (.inl ⟨_, _, rfl, rfl,
                escapeTail?_eq_some_iff.mpr (.inl ⟨digits, hne, hsplit, rfl⟩)⟩)
            have hwhole : '\\' :: digits ++ ' ' :: rest =
                '\\' :: (digits ++ [' ']) ++ rest := by simp
            rw [hwhole]
            exact .cons (by simpa using hclosed) hrest
          · left
            intro rest
            rw [← List.append_nil unit]
            exact .cons (hsealed _) (.nil (unit?_space rest))

end Cascade.Ident
