import Cascade.Text.Basic

/-!
# What trimming leaves

A text is its trimmed part between white space, and the trimmed part is the only
one of its kind: it neither starts nor ends with white space.  The same is said
about skipping blanks, which looks at the front only.
-/

namespace Cascade.Text

def IsTrimmed (text : Text) : Prop :=
  (∀ c ∈ text.head?, isSpace c = false) ∧
    ∀ c ∈ text.getLast?, isSpace c = false

theorem trimStart_append {before text : Text}
    (hbefore : ∀ c ∈ before, isSpace c = true) :
    trimStart (before ++ text) = trimStart text :=
  List.dropWhile_append_of_pos hbefore

theorem trimStart_eq_self {text : Text}
    (h : ∀ c ∈ text.head?, isSpace c = false) : trimStart text = text := by
  cases text with
  | nil => rfl
  | cons c text => simp [trimStart, h c rfl]

theorem exists_trimStart (text : Text) :
    ∃ before, (∀ c ∈ before, isSpace c = true) ∧
      text = before ++ trimStart text ∧
      ∀ c ∈ (trimStart text).head?, isSpace c = false := by
  induction text with
  | nil => exact ⟨[], by simp, rfl, by simp [trimStart]⟩
  | cons c text ih =>
      by_cases hc : isSpace c = true
      · obtain ⟨before, hbefore, happend, hhead⟩ := ih
        have htrim : trimStart (c :: text) = trimStart text := by
          simp [trimStart, hc]
        rw [htrim]
        refine ⟨c :: before, ?_, congrArg (c :: ·) happend, hhead⟩
        simpa [hc] using hbefore
      · have htrim : trimStart (c :: text) = c :: text := by
          simp [trimStart, hc]
        rw [htrim]
        exact ⟨[], by simp, rfl, by simpa using hc⟩

theorem trimEnd_eq_reverse (text : Text) :
    trimEnd text = (trimStart text.reverse).reverse := rfl

/-- The trimmed part is what stands between the white space at the edges. -/
theorem trim_eq_iff {text middle : Text} :
    trim text = middle ↔ IsTrimmed middle ∧
      ∃ before after, text = before ++ middle ++ after ∧
        (∀ c ∈ before, isSpace c = true) ∧ ∀ c ∈ after, isSpace c = true := by
  constructor
  · rintro rfl
    obtain ⟨before, hbefore, hstart, hhead⟩ := exists_trimStart text
    obtain ⟨after, hafter, hend, hlast⟩ :=
      exists_trimStart (trimStart text).reverse
    rw [List.reverse_eq_iff, List.reverse_append] at hend
    have happend : trimStart text = trim text ++ after.reverse := hend
    refine ⟨⟨?_, ?_⟩, before, after.reverse, ?_, hbefore, ?_⟩
    · intro c hc
      apply hhead c
      rw [happend, List.head?_append, Option.mem_def.mp hc]
      rfl
    · intro c hc
      apply hlast c
      rwa [trim, trimEnd_eq_reverse, List.getLast?_reverse] at hc
    · rw [List.append_assoc, ← happend]
      exact hstart
    · simpa using hafter
  · rintro ⟨⟨hhead, hlast⟩, before, after, rfl, hbefore, hafter⟩
    rw [trim, trimEnd_eq_reverse, List.append_assoc, trimStart_append hbefore]
    cases middle with
    | nil =>
        have hnil : trimStart (after ++ []) = trimStart [] :=
          trimStart_append hafter
        rw [List.append_nil] at hnil
        rw [List.nil_append, hnil]
        rfl
    | cons c middle =>
        have hstart : trimStart (c :: middle ++ after) = c :: middle ++ after :=
          trimStart_eq_self (by simpa using hhead)
        rw [hstart, List.reverse_append,
          trimStart_append (by simpa using hafter), trimStart_eq_self,
          List.reverse_reverse]
        rw [List.head?_reverse]
        exact hlast

theorem isTrimmed_trim (text : Text) : IsTrimmed (trim text) :=
  (trim_eq_iff.mp rfl).1

theorem trim_eq_self_iff {text : Text} : trim text = text ↔ IsTrimmed text := by
  constructor
  · intro h
    exact (trim_eq_iff.mp h).1
  · intro h
    exact trim_eq_iff.mpr ⟨h, [], [], by simp, by simp, by simp⟩

@[simp]
theorem trim_trim (text : Text) : trim (trim text) = trim text :=
  trim_eq_self_iff.mpr (isTrimmed_trim text)

theorem exists_trim (text : Text) :
    ∃ before after, text = before ++ trim text ++ after ∧
      (∀ c ∈ before, isSpace c = true) ∧ ∀ c ∈ after, isSpace c = true :=
  (trim_eq_iff.mp rfl).2

/-- No white space ends a trimmed text. -/
theorem IsTrimmed.eq_nil_of_append {text spaces : Text}
    (h : IsTrimmed (text ++ spaces))
    (hspaces : ∀ c ∈ spaces, isSpace c = true) : spaces = [] := by
  cases hlast : spaces.getLast? with
  | none => exact List.getLast?_eq_none_iff.mp hlast
  | some c =>
      have hspace := hspaces c (List.mem_of_getLast? hlast)
      rw [h.2 c (by simp [hlast])] at hspace
      cases hspace

theorem mem_of_mem_trim {text : Text} {c : Char} (h : c ∈ trim text) :
    c ∈ text := by
  obtain ⟨front, back, htext, _⟩ := exists_trim text
  rw [htext]
  exact List.mem_append_left _ (List.mem_append_right _ h)

/-- Nothing is left exactly of white space. -/
theorem trim_eq_nil_iff {text : Text} :
    trim text = [] ↔ ∀ c ∈ text, isSpace c = true := by
  rw [trim_eq_iff]
  constructor
  · rintro ⟨_, before, after, rfl, hbefore, hafter⟩ c hc
    simp only [List.append_nil, List.mem_append] at hc
    exact hc.elim (hbefore c) (hafter c)
  · intro h
    exact ⟨⟨by simp, by simp⟩, text, [], by simp, h, by simp⟩

def IsBlank (text : Text) : Prop :=
  ∀ c ∈ text, isBlank c = true

instance (text : Text) : Decidable (IsBlank text) :=
  List.decidableBAll (fun c => isBlank c = true) text

theorem isBlank_nil : IsBlank [] := by decide

theorem isBlank_space : IsBlank [' '] := by decide

theorem skipBlanks_append {blanks text : Text} (h : IsBlank blanks) :
    skipBlanks (blanks ++ text) = skipBlanks text :=
  List.dropWhile_append_of_pos h

/-- What skipping leaves stands behind blanks and starts with none. -/
theorem exists_skipBlanks (text : Text) :
    ∃ blanks, IsBlank blanks ∧ text = blanks ++ skipBlanks text ∧
      ∀ c ∈ (skipBlanks text).head?, isBlank c = false := by
  induction text with
  | nil => exact ⟨[], by simp [IsBlank], rfl, by simp⟩
  | cons c text ih =>
      by_cases hc : isBlank c = true
      · obtain ⟨blanks, hblanks, happend, hhead⟩ := ih
        rw [skipBlanks_cons_of_isBlank hc]
        refine ⟨c :: blanks, ?_, congrArg (c :: ·) happend, hhead⟩
        simpa [IsBlank, hc] using hblanks
      · have hblank : isBlank c = false := by simpa using hc
        rw [skipBlanks_cons_of_not_isBlank hblank]
        exact ⟨[], by simp [IsBlank], rfl, by simpa using hblank⟩

theorem mem_of_mem_skipBlanks {text : Text} {c : Char}
    (h : c ∈ skipBlanks text) : c ∈ text :=
  (List.dropWhile_sublist isBlank).mem h

theorem skipBlanks_eq_nil_iff {text : Text} :
    skipBlanks text = [] ↔ IsBlank text := by
  constructor
  · intro h
    obtain ⟨blanks, hblanks, htext, _⟩ := exists_skipBlanks text
    rw [h, List.append_nil] at htext
    rwa [htext]
  · intro h
    have hskip : skipBlanks (text ++ []) = skipBlanks [] := skipBlanks_append h
    rwa [List.append_nil] at hskip

/-- Blanks are skipped up to a character that is none, or up to the text's end. -/
theorem skipBlanks_append_cons {c : Char} (hc : isBlank c = false)
    (text rest : Text) :
    skipBlanks (text ++ c :: rest) = skipBlanks text ++ c :: rest := by
  obtain ⟨blanks, hblanks, htext, hhead⟩ := exists_skipBlanks text
  generalize skipBlanks text = middle at *
  rw [htext, List.append_assoc, skipBlanks_append hblanks]
  cases middle with
  | nil => exact skipBlanks_cons_of_not_isBlank hc
  | cons d middle => exact skipBlanks_cons_of_not_isBlank (hhead d rfl)

/-- More white space in front makes no difference. -/
theorem trim_spaces_append {before text : Text}
    (hbefore : ∀ c ∈ before, isSpace c = true) :
    trim (before ++ text) = trim text := by
  obtain ⟨front, back, htext, hfront, hback⟩ := exists_trim text
  refine trim_eq_iff.mpr ⟨isTrimmed_trim text, before ++ front, back, ?_,
    List.forall_mem_append.mpr ⟨hbefore, hfront⟩, hback⟩
  simpa using congrArg (before ++ ·) htext

/-- More white space behind makes no difference. -/
theorem trim_append_spaces {text after : Text}
    (hafter : ∀ c ∈ after, isSpace c = true) :
    trim (text ++ after) = trim text := by
  obtain ⟨front, back, htext, hfront, hback⟩ := exists_trim text
  refine trim_eq_iff.mpr ⟨isTrimmed_trim text, front, back ++ after, ?_, hfront,
    List.forall_mem_append.mpr ⟨hback, hafter⟩⟩
  simpa using congrArg (· ++ after) htext

theorem IsBlank.trim_append {blanks : Text} (h : IsBlank blanks) (text : Text) :
    trim (blanks ++ text) = trim text :=
  trim_spaces_append fun c hc => isSpace_of_isBlank (h c hc)

theorem trim_skipBlanks (text : Text) : trim (skipBlanks text) = trim text := by
  obtain ⟨blanks, hblanks, htext, _⟩ := exists_skipBlanks text
  have htrim := hblanks.trim_append (skipBlanks text)
  rw [← htext] at htrim
  exact htrim.symm

/-- Trimming takes nothing out but white space. -/
theorem count_trim {c : Char} (hc : isSpace c = false) (text : Text) :
    (trim text).count c = text.count c := by
  obtain ⟨before, after, htext, hbefore, hafter⟩ := exists_trim text
  have hnone {spaces : Text} (h : ∀ d ∈ spaces, isSpace d = true) :
      spaces.count c = 0 :=
    List.count_eq_zero.mpr fun hmem => by simp [h c hmem] at hc
  have hcount := congrArg (List.count c) htext
  rw [List.count_append, List.count_append, hnone hbefore, hnone hafter] at hcount
  omega

/-- Blanks in front of another character can be told off from it. -/
theorem IsBlank.append_inj {first second : Text} {c d : Char} {rest tail : Text}
    (hfirst : IsBlank first) (hsecond : IsBlank second)
    (hc : isBlank c = false) (hd : isBlank d = false)
    (h : first ++ c :: rest = second ++ d :: tail) :
    first = second ∧ c :: rest = d :: tail := by
  have hskip := congrArg skipBlanks h
  rw [skipBlanks_append hfirst, skipBlanks_append hsecond,
    skipBlanks_cons_of_not_isBlank hc, skipBlanks_cons_of_not_isBlank hd] at hskip
  rw [hskip] at h
  exact ⟨List.append_cancel_right h, hskip⟩

theorem eq_nil_of_spaces_append {spaces text : Text}
    (hspaces : ∀ c ∈ spaces, isSpace c = true)
    (htext : ∀ c ∈ (spaces ++ text).head?, isSpace c = false) : spaces = [] := by
  cases spaces with
  | nil => rfl
  | cons c spaces =>
      have hspace := hspaces c (by simp)
      rw [htext c rfl] at hspace
      cases hspace

/-- A text and its trimmed part differ in front of a character that is no white
space. -/
theorem eq_trim_of_append {text : Text} {c : Char} {rest tail : Text}
    (hc : isSpace c = false) (h : text ++ c :: rest = trim text ++ c :: tail) :
    text = trim text := by
  obtain ⟨front, back, htext, hfront, hback⟩ := exists_trim text
  obtain ⟨hhead, _⟩ := isTrimmed_trim text
  generalize trim text = middle at *
  subst htext
  have hstart : ∀ d ∈ (middle ++ c :: tail).head?, isSpace d = false := by
    cases middle with
    | nil =>
        rintro _ ⟨⟩
        exact hc
    | cons first middle => exact hhead
  rw [← h, List.append_assoc, List.append_assoc] at hstart
  obtain rfl := eq_nil_of_spaces_append hfront hstart
  rw [List.nil_append, List.append_assoc] at h
  have hbehind := List.append_cancel_left h
  have hend : ∀ d ∈ (back ++ c :: rest).head?, isSpace d = false := by
    rw [hbehind]
    rintro _ ⟨⟩
    exact hc
  obtain rfl := eq_nil_of_spaces_append hback hend
  simp

end Cascade.Text
