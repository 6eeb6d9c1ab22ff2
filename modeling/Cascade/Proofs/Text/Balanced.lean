import Cascade.Proofs.Text.Nesting

/-!
# Balanced texts

A text is balanced if it is read as the content of a group up to the parenthesis
behind it.  This is the same as going through it one character at a time and
coming back to where nothing is open, which no longer mentions how strings and
groups are found.
-/

namespace Cascade.Enclosed

open Text (isLineEnd)

/-- A text that a closing parenthesis behind it makes the content of a group. -/
def Balanced (content : Text) : Prop :=
  groupContent (content ++ [')']) = (content, [')'])

instance (content : Text) : Decidable (Balanced content) :=
  inferInstanceAs (Decidable (_ = _))

namespace Nesting

/-! ## What opens and what closes -/

theorem turn_closer (inner : Enclosure) (outer : List Enclosure) :
    turn inner.closer (inner :: outer) = some outer := by
  simp [turn]

theorem turn_inside {inner : Enclosure} {c : Char} (hstring : inner ≠ .group)
    (hc : c ≠ inner.closer) (outer : List Enclosure) :
    turn c (inner :: outer) = some (inner :: outer) := by
  simp [turn, hstring, hc]

theorem turn_opener {c : Char} {inner : Enclosure}
    (h : Enclosure.ofOpener? c = some inner) {stack : List Enclosure}
    (hstack : Outside stack) : turn c stack = some (inner :: stack) := by
  have hc : c ≠ ')' := by
    rintro rfl
    cases h
  cases stack with
  | nil => simp [turn, hc, h]
  | cons outer rest =>
      obtain rfl : outer = .group := hstack outer rfl
      simp [turn, Enclosure.closer, hc, h]

theorem turn_parenthesis {stack : List Enclosure} (hstack : Outside stack) :
    turn '(' stack = some (.group :: stack) :=
  turn_opener rfl hstack

theorem exists_of_isQuote {c : Char} (h : isQuote c = true) :
    ∃ inner, Enclosure.ofOpener? c = some inner ∧ inner ≠ .group ∧
      inner.closer = c := by
  simp only [isQuote, Bool.or_eq_true, beq_iff_eq] at h
  rcases h with rfl | rfl
  · exact ⟨.double, rfl, by decide, rfl⟩
  · exact ⟨.single, rfl, by decide, rfl⟩

theorem closer_ne_backslash (inner : Enclosure) : inner.closer ≠ '\\' := by
  cases inner <;> decide

theorem isPlain_of_not_special {c : Char} (hbackslash : c ≠ '\\')
    (hopen : c ≠ '(') (hclose : c ≠ ')') (hquote : isQuote c = false) :
    isPlain c = true := by
  simp [isPlain, hbackslash, hopen, hclose, hquote]

theorem outside_nil : Outside [] := by
  intro inner h
  cases h

theorem outside_group (outer : List Enclosure) : Outside (.group :: outer) := by
  rintro inner ⟨⟩
  rfl

/-! ## Strings and groups come back to where they started -/

/-- A text that changes nothing outside strings. -/
def KeepsStackOutside (text : Text) : Prop :=
  ∀ stack, Outside stack → run ⟨stack, false⟩ text = some ⟨stack, false⟩

theorem KeepsStackOutside.append {first second : Text} (hfirst : KeepsStackOutside first)
    (hsecond : KeepsStackOutside second) : KeepsStackOutside (first ++ second) := by
  intro stack hstack
  rw [run_append, hfirst stack hstack]
  exact hsecond stack hstack

/-- It is enough that nothing changes where nothing is open. -/
theorem keepsStackOutside_iff {text : Text} :
    KeepsStackOutside text ↔ run start text = some start := by
  constructor
  · intro h
    exact h [] outside_nil
  · intro h stack hstack
    exact run_frame hstack h

theorem run_escape {c : Char} (h : isLineEnd c = false)
    (stack : List Enclosure) (text : Text) :
    run ⟨stack, false⟩ ('\\' :: c :: text) = run ⟨stack, false⟩ text := by
  rw [run_cons, step_backslash, Option.bind_some, run_cons, step_escaped _ h]
  rfl

theorem run_stringContent {inner : Enclosure} (hstring : inner ≠ .group)
    (outer : List Enclosure) (input : Text) :
    run ⟨inner :: outer, false⟩ (stringContent inner.closer input).1 =
      some ⟨inner :: outer, false⟩ := by
  fun_induction stringContent inner.closer input with
  | case1 => rfl
  | case2 => rfl
  | case3 => rfl
  | case4 c rest hend found ih =>
      exact (run_escape (by simpa using hend) _ _).trans ih
  | case5 => rfl
  | case6 c rest hlone hescape hc found ih =>
      have hbackslash : c ≠ '\\' := by
        rintro rfl
        cases rest with
        | nil => exact hlone rfl rfl
        | cons next rest => exact hescape next rest rfl rfl
      rw [run_cons, step_of_ne hbackslash, turn_inside hstring hc]
      exact ih

theorem keepsStackOutside_string {input string rest : Text}
    (h : string? input = some (string, rest)) : KeepsStackOutside string := by
  unfold string? at h
  split at h
  · cases h
  · rename_i quote text
    split at h
    · rename_i hquote
      obtain ⟨inner, hopener, hstring, rfl⟩ := exists_of_isQuote hquote
      split at h
      · rename_i content c after hcontent
        split at h
        · rename_i hc
          cases h
          intro stack hstack
          have hinside := run_stringContent hstring stack text
          rw [hcontent] at hinside
          rw [List.cons_append, run_cons,
            step_of_ne (closer_ne_backslash inner), turn_opener hopener hstack,
            Option.map_some, Option.bind_some, run_append, hinside,
            Option.bind_some, run_cons, step_of_ne (closer_ne_backslash inner),
            turn_closer]
          rfl
        · cases h
      · cases h
    · cases h

/-- What is taken as plain is an escape of one character, or a character without a
meaning of its own. -/
theorem exists_of_plain? {input piece rest : Text}
    (h : plain? input = some (piece, rest)) :
    ∃ c, (piece = ['\\', c] ∧ isLineEnd c = false) ∨
      (piece = [c] ∧ c ≠ '(' ∧ c ≠ ')' ∧ isQuote c = false ∧ c ≠ '\\') := by
  unfold plain? at h
  split at h
  · cases h
  · cases h
  · rename_i c text
    split at h
    · cases h
    · rename_i hend
      cases h
      exact ⟨c, .inl ⟨rfl, by simpa using hend⟩⟩
  · rename_i c text hlone hescape
    split at h
    · cases h
    · rename_i hspecial
      cases h
      simp only [Bool.or_eq_true, decide_eq_true_eq, not_or, Bool.not_eq_true] at hspecial
      obtain ⟨⟨hopen, hclose⟩, hquote⟩ := hspecial
      refine ⟨c, .inr ⟨rfl, hopen, hclose, hquote, ?_⟩⟩
      rintro rfl
      cases rest with
      | nil => exact hlone rfl rfl
      | cons next rest => exact hescape next rest rfl rfl

theorem keepsStackOutside_plain {input piece rest : Text}
    (h : plain? input = some (piece, rest)) : KeepsStackOutside piece := by
  intro stack _
  obtain ⟨c, ⟨rfl, hend⟩ | ⟨rfl, hopen, hclose, hquote, hbackslash⟩⟩ := exists_of_plain? h
  · exact run_escape hend stack []
  · exact run_char (isPlain_of_not_special hbackslash hopen hclose hquote) stack

theorem KeepsStackOutside.group {content : Text} (h : KeepsStackOutside content) :
    KeepsStackOutside ('(' :: content ++ [')']) := by
  intro stack hstack
  rw [List.cons_append, run_cons, step_of_ne (by decide),
    turn_parenthesis hstack, Option.map_some,
    Option.bind_some, run_append, h _ (outside_group stack)]
  rfl

/-- What is true of the empty text, and stays true with a group of such a text, a
string or something plain in front, is true of the content of every group. -/
theorem groupContent_induction {holds : Text → Prop} (hnil : holds [])
    (hgroup : ∀ {inner behind : Text}, holds inner → holds behind →
      holds ('(' :: inner ++ [')'] ++ behind))
    (hstring : ∀ {input string rest behind : Text},
      string? input = some (string, rest) → holds behind → holds (string ++ behind))
    (hplain : ∀ {input piece rest behind : Text},
      plain? input = some (piece, rest) → holds behind → holds (piece ++ behind))
    (input : Text) : holds (groupContent input).1 := by
  rw [groupContent_eq]
  cases hfound : group? input with
  | some found =>
      obtain ⟨piece, rest⟩ := found
      have hrest := length_lt_of_group? hfound
      have hbehind := groupContent_induction hnil hgroup hstring hplain rest
      unfold group? at hfound
      split at hfound
      · rename_i text
        have hinside := groupContent_induction hnil hgroup hstring hplain text
        split at hfound
        · rename_i content after hcontent
          rw [hcontent] at hinside
          cases hfound
          exact hgroup hinside hbehind
        · cases hfound
      · cases hfound
  | none =>
      rw [Option.none_or]
      cases hpiece : piece? input with
      | none => exact hnil
      | some found =>
          obtain ⟨piece, rest⟩ := found
          have hrest := length_lt_of_piece? hpiece
          have hbehind := groupContent_induction hnil hgroup hstring hplain rest
          rcases Option.or_eq_some_iff.mp hpiece with hfound | ⟨_, hfound⟩
          · exact hstring hfound hbehind
          · exact hplain hfound hbehind
termination_by input.length

/-- The content of a group closes whatever it opens. -/
theorem keepsStackOutside_groupContent (input : Text) :
    KeepsStackOutside (groupContent input).1 := by
  refine groupContent_induction (fun stack _ => rfl) ?_ ?_ ?_ input
  · exact fun hinner hbehind => hinner.group.append hbehind
  · exact fun hstring hbehind => (keepsStackOutside_string hstring).append hbehind
  · exact fun hplain hbehind => (keepsStackOutside_plain hplain).append hbehind

/-! ## A group that is closed is found -/

theorem length_le_of_keepsStackOutside {stack : List Enclosure} {first second : Text}
    {after : Nesting} (houtside : KeepsStackOutside (first ++ second))
    (hstack : Outside stack) (hrun : run ⟨stack, false⟩ first = some after) :
    stack.length ≤ after.stack.length := by
  obtain ⟨middle, hfirst, _⟩ :=
    run_append_eq_some_iff.mp (houtside [] outside_nil)
  have hframe := run_frame hstack hfirst
  rw [List.nil_append, hrun] at hframe
  cases hframe
  simp

/-- Where neither an escape nor the closing quote stands, the content of a
string goes on. -/
theorem stringContent_cons {quote c : Char} (hbackslash : c ≠ '\\')
    (hc : c ≠ quote) (input : Text) :
    stringContent quote (c :: input) =
      (c :: (stringContent quote input).1, (stringContent quote input).2) := by
  rw [stringContent.eq_def]
  split <;> simp_all

theorem stringContent_quote {quote : Char} (hquote : quote ≠ '\\')
    (input : Text) :
    stringContent quote (quote :: input) = ([], quote :: input) := by
  rw [stringContent.eq_def]
  split <;> simp_all

/-- A string that is left again is closed. -/
theorem exists_stringContent_of_run {inner : Enclosure}
    (hstring : inner ≠ .group) {outer : List Enclosure} {text : Text}
    {after : Nesting} (hrun : run ⟨inner :: outer, false⟩ text = some after)
    (hleft : after.stack.length ≤ outer.length) (rest : Text) :
    ∃ content behind, stringContent inner.closer (text ++ rest) =
      (content, inner.closer :: behind) := by
  cases text with
  | nil =>
      cases hrun
      exact absurd hleft (by simp)
  | cons c text =>
      by_cases hbackslash : c = '\\'
      · subst hbackslash
        cases text with
        | nil =>
            cases hrun
            exact absurd hleft (by simp)
        | cons c text =>
            have hend : isLineEnd c = false := by
              cases hend : isLineEnd c with
              | true => simp [run_cons, step, hend] at hrun
              | false => rfl
            rw [run_escape hend] at hrun
            obtain ⟨content, behind, hcontent⟩ :=
              exists_stringContent_of_run hstring hrun hleft rest
            exact ⟨'\\' :: c :: content, behind, by
              simp [stringContent, hend, hcontent]⟩
      · by_cases hc : c = inner.closer
        · subst hc
          exact ⟨[], text ++ rest, stringContent_quote hbackslash _⟩
        · rw [run_cons, step_of_ne hbackslash, turn_inside hstring hc,
            Option.map_some, Option.bind_some] at hrun
          obtain ⟨content, behind, hcontent⟩ :=
            exists_stringContent_of_run hstring hrun hleft rest
          refine ⟨c :: content, behind, ?_⟩
          rw [List.cons_append, stringContent_cons hbackslash hc, hcontent]
termination_by text.length

/-- Behind the content of a group stands no further piece of it. -/
theorem stuck_of_groupContent (input : Text) :
    group? (groupContent input).2 = none ∧
      piece? (groupContent input).2 = none := by
  rw [groupContent_eq]
  cases hfound : (group? input).or (piece? input) with
  | none => exact Option.or_eq_none_iff.mp hfound
  | some found =>
      obtain ⟨piece, rest⟩ := found
      have hrest : rest.length < input.length := by
        rcases Option.or_eq_some_iff.mp hfound with hgroup | ⟨_, hpiece⟩
        · exact length_lt_of_group? hgroup
        · exact length_lt_of_piece? hpiece
      exact stuck_of_groupContent rest
termination_by input.length

/-- Where a text leaves the group in which it stands, but no string, escape or
plain character is next, a parenthesis is. -/
theorem parenthesis_of_stuck {stack : List Enclosure} (hstack : Outside stack)
    {c : Char} {text : Text} {after : Nesting}
    (hrun : run ⟨stack, false⟩ (c :: text) = some after)
    (hleft : after.stack.length < stack.length) {rest : Text}
    (hstuck : piece? (c :: text ++ rest) = none) : c = ')' ∨ c = '(' := by
  obtain ⟨hstring, hplain⟩ := Option.or_eq_none_iff.mp hstuck
  by_cases hbackslash : c = '\\'
  · subst hbackslash
    cases text with
    | nil =>
        cases hrun
        exact absurd hleft (Nat.lt_irrefl _)
    | cons c text =>
        cases hend : isLineEnd c with
        | true => simp [run_cons, step, hend] at hrun
        | false => simp [plain?, hend] at hplain
  · by_cases hquote : isQuote c = true
    · obtain ⟨inner, hopener, hinner, rfl⟩ := exists_of_isQuote hquote
      rw [run_cons, step_of_ne hbackslash, turn_opener hopener hstack,
        Option.map_some, Option.bind_some] at hrun
      obtain ⟨content, behind, hcontent⟩ :=
        exists_stringContent_of_run hinner hrun (Nat.le_of_lt hleft) rest
      simp [string?, hquote, hcontent] at hstring
    · apply Decidable.byContradiction
      intro hother
      rw [not_or] at hother
      rw [List.cons_append, plain?.eq_def] at hplain
      split at hplain <;> simp_all

/-- A text that leaves the group in which it starts has the parenthesis that
closes this group, and the reader finds it. -/
theorem groupContent_of_run {stack : List Enclosure} (hstack : Outside stack)
    {text : Text} {after : Nesting}
    (hrun : run ⟨stack, false⟩ text = some after)
    (hleft : after.stack.length < stack.length) (rest : Text) :
    ∃ content behind, text = content ++ ')' :: behind ∧
      groupContent (text ++ rest) = (content, ')' :: behind ++ rest) := by
  have happend := append_of_groupContent (text ++ rest)
  have houtside := keepsStackOutside_groupContent (text ++ rest)
  have hstuck := stuck_of_groupContent (text ++ rest)
  generalize groupContent (text ++ rest) = found at *
  obtain ⟨content, behind⟩ := found
  dsimp only at happend houtside hstuck
  -- The content ends inside the text, since it never leaves the group.
  rcases List.append_eq_append_iff.mp happend with
    ⟨tail, htext, rfl⟩ | ⟨more, rfl, _⟩
  · rw [htext, run_append, houtside stack hstack, Option.bind_some] at hrun
    cases tail with
    | nil =>
        cases hrun
        exact absurd hleft (Nat.lt_irrefl _)
    | cons c tail =>
        rcases parenthesis_of_stuck hstack hrun hleft hstuck.2 with rfl | rfl
        · exact ⟨content, tail, htext, rfl⟩
        · have hshort : tail.length < text.length := by
            rw [htext, List.length_append, List.length_cons]
            omega
          rw [run_cons, step_of_ne (by decide),
            turn_parenthesis hstack, Option.map_some,
            Option.bind_some] at hrun
          obtain ⟨inner, outer, _, hinner⟩ :=
            groupContent_of_run (outside_group stack) hrun
              (Nat.lt_succ_of_lt hleft) rest
          have hgroup := hstuck.1
          simp [group?, hinner] at hgroup
  · exact absurd (length_le_of_keepsStackOutside houtside hstack hrun) (by omega)
termination_by text.length

end Nesting

open Nesting

/-- The reader of groups takes exactly the texts that close whatever they open,
whatever follows the parenthesis behind them. -/
theorem groupContent_append_iff {content rest : Text} :
    groupContent (content ++ ')' :: rest) = (content, ')' :: rest) ↔
      KeepsStackOutside content := by
  constructor
  · intro h
    have houtside := keepsStackOutside_groupContent (content ++ ')' :: rest)
    rwa [h] at houtside
  · intro h
    have hcloses : run ⟨[.group], false⟩ (content ++ [')']) =
        some ⟨[], false⟩ := by
      rw [run_append, h _ (outside_group [])]
      rfl
    obtain ⟨inner, behind, heq, hgroup⟩ :=
      groupContent_of_run (outside_group []) hcloses Nat.zero_lt_one rest
    rw [List.append_assoc, List.singleton_append] at hgroup
    rcases List.append_eq_append_iff.mp heq with
      ⟨tail, rfl, hbehind⟩ | ⟨tail, rfl, hbehind⟩
    · cases tail with
      | nil =>
          cases hbehind
          simpa using hgroup
      | cons c tail => simp at hbehind
    · cases tail with
      | nil =>
          cases hbehind
          simpa using hgroup
      | cons c tail =>
          -- The content would leave the group before its end.
          obtain ⟨rfl, rfl⟩ := List.cons.inj hbehind
          have hinner :=
            keepsStackOutside_groupContent (inner ++ ')' :: tail ++ ')' :: rest)
          rw [hgroup] at hinner
          have hdead := h [] outside_nil
          rw [run_append, hinner [] outside_nil] at hdead
          cases hdead

/-- A balanced text is one that closes whatever it opens. -/
theorem balanced_iff_keepsStackOutside {content : Text} :
    Balanced content ↔ KeepsStackOutside content :=
  groupContent_append_iff

theorem Balanced.groupContent_append {content : Text} (h : Balanced content)
    (rest : Text) :
    groupContent (content ++ ')' :: rest) = (content, ')' :: rest) :=
  groupContent_append_iff.mpr (balanced_iff_keepsStackOutside.mp h)

/-- Only a balanced text is read as the content of a group. -/
theorem balanced_of_groupContent {input content rest : Text}
    (h : groupContent input = (content, ')' :: rest)) : Balanced content := by
  have houtside := keepsStackOutside_groupContent input
  rw [h] at houtside
  exact balanced_iff_keepsStackOutside.mpr houtside

end Cascade.Enclosed
