import Cascade.Fault

/-!
# Strings and groups

Quoted strings and parenthesised groups are opaque: whatever they hold neither
ends nor splits the text around them.  A string ends at its own quote, a group
at the parenthesis that balances it, and inside both a backslash takes the
character behind it along.  What the readers here take and what they leave is
always the text that was given.
-/

namespace Cascade.Enclosed

open Text (isLineEnd)

def isQuote (c : Char) : Bool :=
  c == '"' || c == '\''

/-- The characters up to the quote that ends a string.  A backslash before the
end of a line is part of no escape, so the content stops in front of it. -/
def stringContent (quote : Char) : Text → Text × Text
  | [] => ([], [])
  | ['\\'] => ([], ['\\'])
  | '\\' :: c :: rest =>
      if isLineEnd c then ([], '\\' :: c :: rest)
      else
        let found := stringContent quote rest
        ('\\' :: c :: found.1, found.2)
  | c :: rest =>
      if c = quote then ([], c :: rest)
      else
        let found := stringContent quote rest
        (c :: found.1, found.2)

def string? : Text → Option (Text × Text)
  | [] => none
  | quote :: rest =>
      if isQuote quote then
        match stringContent quote rest with
        | (content, c :: after) =>
            if c = quote then some (quote :: content ++ [quote], after) else none
        | (_, []) => none
      else none

theorem append_of_stringContent (quote : Char) (input : Text) :
    (stringContent quote input).1 ++ (stringContent quote input).2 = input := by
  fun_induction stringContent quote input with
  | case1 => rfl
  | case2 => rfl
  | case3 => rfl
  | case4 c rest _ found ih => exact congrArg ('\\' :: c :: ·) ih
  | case5 => rfl
  | case6 c rest _ _ _ found ih => exact congrArg (c :: ·) ih

/-- A string and what follows it are the text. -/
theorem append_of_string? {input string rest : Text}
    (h : string? input = some (string, rest)) : string ++ rest = input := by
  unfold string? at h
  split at h
  · cases h
  · rename_i quote text
    have happend := append_of_stringContent quote text
    split at h
    · split at h
      · rename_i content c after hcontent
        rw [hcontent] at happend
        split at h
        · rename_i hc
          cases h
          simp_all
        · cases h
      · cases h
    · cases h

theorem string?_ne_nil {input string rest : Text}
    (h : string? input = some (string, rest)) : string ≠ [] := by
  unfold string? at h
  grind

/-- A string has at least its quotes, so what follows it is shorter. -/
theorem length_lt_of_string? {input string rest : Text}
    (h : string? input = some (string, rest)) : rest.length < input.length := by
  have hpos := List.length_pos_iff.mpr (string?_ne_nil h)
  rw [← append_of_string? h, List.length_append]
  omega

/-- The escape, or the character without a meaning of its own, at the front of
a group's content. -/
def plain? : Text → Option (Text × Text)
  | [] => none
  | ['\\'] => none
  | '\\' :: c :: rest => if isLineEnd c then none else some (['\\', c], rest)
  | c :: rest =>
      if c = '(' || c = ')' || isQuote c then none else some ([c], rest)

theorem append_of_plain? {input piece rest : Text}
    (h : plain? input = some (piece, rest)) : piece ++ rest = input := by
  unfold plain? at h
  grind

theorem length_lt_of_plain? {input piece rest : Text}
    (h : plain? input = some (piece, rest)) : rest.length < input.length := by
  unfold plain? at h
  grind

def piece? (input : Text) : Option (Text × Text) :=
  (string? input).or (plain? input)

theorem append_of_piece? {input piece rest : Text}
    (h : piece? input = some (piece, rest)) : piece ++ rest = input := by
  rcases Option.or_eq_some_iff.mp h with hstring | ⟨_, hplain⟩
  · exact append_of_string? hstring
  · exact append_of_plain? hplain

theorem length_lt_of_piece? {input piece rest : Text}
    (h : piece? input = some (piece, rest)) : rest.length < input.length := by
  rcases Option.or_eq_some_iff.mp h with hstring | ⟨_, hplain⟩
  · exact length_lt_of_string? hstring
  · exact length_lt_of_plain? hplain

/-- The characters up to the parenthesis that closes the current group,
together with the fact that nothing is lost.  Strings and inner groups are taken
whole; in front of one that is not closed the content stops. -/
def splitGroup (input : Text) :
    { found : Text × Text // found.1 ++ found.2 = input } :=
  match input with
  | '(' :: rest =>
      let inside := splitGroup rest
      match hinside : inside.1 with
      | (inner, ')' :: after) =>
          let found := splitGroup after
          ⟨('(' :: inner ++ ')' :: found.1.1, found.1.2), by
            have happend := inside.2
            rw [hinside] at happend
            simp [found.2, ← happend]⟩
      | _ => ⟨([], '(' :: rest), rfl⟩
  | other =>
      match hpiece : piece? other with
      | some (piece, rest) =>
          let found := splitGroup rest
          ⟨(piece ++ found.1.1, found.1.2), by
            rw [List.append_assoc, found.2, append_of_piece? hpiece]⟩
      | none => ⟨([], other), rfl⟩
termination_by input.length
decreasing_by
  · simp
  · have happend := inside.2
    rw [hinside] at happend
    simp only [← happend, List.length_append, List.length_cons]
    omega
  · exact length_lt_of_piece? hpiece

/-- What stands before the parenthesis that closes the current group, and the
text from there on. -/
def groupContent (input : Text) : Text × Text :=
  (splitGroup input).1

def group? : Text → Option (Text × Text)
  | '(' :: rest =>
      match groupContent rest with
      | (content, ')' :: after) => some ('(' :: content ++ [')'], after)
      | _ => none
  | _ => none

def enclosed? (input : Text) : Option (Text × Text) :=
  (string? input).or (group? input)

theorem append_of_groupContent (input : Text) :
    (groupContent input).1 ++ (groupContent input).2 = input :=
  (splitGroup input).2

theorem append_of_group? {input group rest : Text}
    (h : group? input = some (group, rest)) : group ++ rest = input := by
  unfold group? at h
  split at h
  · rename_i text
    have happend := append_of_groupContent text
    split at h
    · rename_i content after hcontent
      rw [hcontent] at happend
      cases h
      simp_all
    · cases h
  · cases h

/-- An enclosure and what follows it are the text. -/
theorem append_of_enclosed? {input piece rest : Text}
    (h : enclosed? input = some (piece, rest)) : piece ++ rest = input := by
  rcases Option.or_eq_some_iff.mp h with hstring | ⟨_, hgroup⟩
  · exact append_of_string? hstring
  · exact append_of_group? hgroup

theorem length_lt_of_group? {input group rest : Text}
    (h : group? input = some (group, rest)) : rest.length < input.length := by
  rw [← append_of_group? h, List.length_append]
  unfold group? at h
  grind

theorem length_lt_of_enclosed? {input piece rest : Text}
    (h : enclosed? input = some (piece, rest)) : rest.length < input.length := by
  rcases Option.or_eq_some_iff.mp h with hstring | ⟨_, hgroup⟩
  · exact length_lt_of_string? hstring
  · exact length_lt_of_group? hgroup

theorem group?_eq_none_of_not_open {input : Text}
    (h : ∀ rest, input ≠ '(' :: rest) : group? input = none := by
  unfold group?
  split
  · exact absurd rfl (h _)
  · rfl

/-- The content of a group is a run of strings, inner groups, escapes and plain
characters. -/
theorem groupContent_eq (input : Text) :
    groupContent input =
      match (group? input).or (piece? input) with
      | some (piece, rest) =>
          (piece ++ (groupContent rest).1, (groupContent rest).2)
      | none => ([], input) := by
  rw [groupContent, splitGroup.eq_def]
  split
  · rename_i rest
    dsimp only
    split
    · rename_i inner after hinner
      simp [group?, groupContent, hinner]
    · rename_i hopen
      have hgroup : group? ('(' :: rest) = none := by
        rw [group?]
        split
        · rename_i content after hcontent
          exact (hopen content after hcontent).elim
        · rfl
      rw [hgroup]
      rfl
  · rename_i hopen
    rw [group?_eq_none_of_not_open hopen, Option.none_or]
    split
    · rename_i piece rest hpiece
      show (piece ++ (groupContent rest).1, (groupContent rest).2) = _
      rw [hpiece]
    · rename_i hpiece
      rw [hpiece]

/-- Reads a string; the fault stands before the whole text unless a single
quote opened it. -/
def readString (input : Text) : Except Fault (Text × Text) :=
  match string? input with
  | some found => .ok found
  | none =>
      match input with
      | '\'' :: rest =>
          .error (.recoverable .delimiter (stringContent '\'' rest).2)
      | _ => .error (.recoverable .delimiter input)

/-- Reads a group; the fault stands where the closing parenthesis is missing,
or before the whole text if no group opens there. -/
def readGroup (input : Text) : Except Fault (Text × Text) :=
  match group? input with
  | some found => .ok found
  | none =>
      match input with
      | '(' :: rest =>
          .error (.recoverable .delimiter (groupContent rest).2)
      | _ => .error (.recoverable .delimiter input)

end Cascade.Enclosed
