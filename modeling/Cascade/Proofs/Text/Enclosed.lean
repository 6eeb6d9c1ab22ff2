import Cascade.Proofs.Text.Balanced

/-!
# Strings and groups in front of other texts

A string or a group is found by looking at it alone, so it is found in front of
every text.  It starts with its opener and ends with its closer, neither of which
is white space.
-/

namespace Cascade.Enclosed

theorem isQuote_ne_backslash {quote : Char} (h : isQuote quote = true) :
    quote ≠ '\\' := by
  rintro rfl
  cases h

/-- Where the content of a string ends does not depend on what follows. -/
theorem stringContent_append {quote : Char} (hquote : quote ≠ '\\')
    {input after : Text} (h : (stringContent quote input).2 = quote :: after)
    (rest : Text) :
    stringContent quote ((stringContent quote input).1 ++ quote :: rest) =
      ((stringContent quote input).1, quote :: rest) := by
  fun_induction stringContent quote input with
  | case1 => cases h
  | case2 =>
      cases h
      exact absurd rfl hquote
  | case3 =>
      cases h
      exact absurd rfl hquote
  | case4 c tail hend found ih =>
      have hfound := ih h
      simp only [List.cons_append, stringContent, if_neg hend]
      exact congrArg (fun found => ('\\' :: c :: found.1, found.2)) hfound
  | case5 =>
      cases h
      exact Nesting.stringContent_quote hquote rest
  | case6 c tail hlone hescape hc found ih =>
      have hfound := ih h
      have hbackslash : c ≠ '\\' := by
        rintro rfl
        cases tail with
        | nil => exact hlone rfl rfl
        | cons next tail => exact hescape next tail rfl rfl
      rw [List.cons_append, Nesting.stringContent_cons hbackslash hc]
      exact congrArg (fun found => (c :: found.1, found.2)) hfound

theorem string?_eq_some_iff {input string rest : Text} :
    string? input = some (string, rest) ↔
      ∃ quote content, isQuote quote = true ∧
        stringContent quote (content ++ [quote]) = (content, [quote]) ∧
        string = quote :: content ++ [quote] ∧ input = string ++ rest := by
  constructor
  · intro h
    have happend := (append_of_string? h).symm
    unfold string? at h
    split at h
    · cases h
    · rename_i quote text
      split at h
      · rename_i hquote
        split at h
        · rename_i content c after hcontent
          split at h
          · rename_i hc
            subst hc
            cases h
            have hfound := stringContent_append (isQuote_ne_backslash hquote)
              (congrArg Prod.snd hcontent) []
            rw [hcontent] at hfound
            exact ⟨c, content, hquote, hfound, rfl, happend⟩
          · cases h
        · cases h
      · cases h
  · rintro ⟨quote, content, hquote, hcontent, rfl, rfl⟩
    have hfound := stringContent_append (isQuote_ne_backslash hquote)
      (congrArg Prod.snd hcontent) rest
    rw [hcontent] at hfound
    simp [string?, hquote, hfound]

theorem group?_eq_some_iff {input group rest : Text} :
    group? input = some (group, rest) ↔
      ∃ content, Balanced content ∧ group = '(' :: content ++ [')'] ∧
        input = group ++ rest := by
  constructor
  · intro h
    have happend := (append_of_group? h).symm
    unfold group? at h
    split at h
    · split at h
      · rename_i hcontent
        cases h
        exact ⟨_, balanced_of_groupContent hcontent, rfl, happend⟩
      · cases h
    · cases h
  · rintro ⟨content, hbalanced, rfl, rfl⟩
    simp [group?, hbalanced.groupContent_append rest]

/-- A string or a group is one, whatever follows it. -/
theorem enclosed?_append {input piece rest : Text}
    (h : enclosed? input = some (piece, rest)) (behind : Text) :
    enclosed? (piece ++ behind) = some (piece, behind) := by
  rcases Option.or_eq_some_iff.mp h with hstring | ⟨_, hgroup⟩
  · obtain ⟨quote, content, hquote, hcontent, hpiece, _⟩ := string?_eq_some_iff.mp hstring
    exact Option.or_eq_some_iff.mpr (.inl (string?_eq_some_iff.mpr
      ⟨quote, content, hquote, hcontent, hpiece, rfl⟩))
  · obtain ⟨content, hbalanced, rfl, _⟩ := group?_eq_some_iff.mp hgroup
    exact Option.or_eq_some_iff.mpr (.inr ⟨rfl, group?_eq_some_iff.mpr
      ⟨content, hbalanced, rfl, rfl⟩⟩)

/-- A string or a group starts with what opens it and ends with what closes
it. -/
theorem exists_of_enclosed? {input piece rest : Text}
    (h : enclosed? input = some (piece, rest)) :
    ∃ opener content closer, piece = opener :: content ++ [closer] ∧
      (opener = '(' ∨ isQuote opener = true) ∧ Text.isSpace closer = false := by
  rcases Option.or_eq_some_iff.mp h with hstring | ⟨_, hgroup⟩
  · obtain ⟨quote, content, hquote, _, hpiece, _⟩ := string?_eq_some_iff.mp hstring
    refine ⟨quote, content, quote, hpiece, .inr hquote, ?_⟩
    simp only [isQuote, Bool.or_eq_true, beq_iff_eq] at hquote
    rcases hquote with rfl | rfl <;> decide
  · obtain ⟨content, _, hpiece, _⟩ := group?_eq_some_iff.mp hgroup
    exact ⟨'(', content, ')', hpiece, .inl rfl, by decide⟩

end Cascade.Enclosed
