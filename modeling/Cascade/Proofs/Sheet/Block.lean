import Cascade.Proofs.Sheet.Body
import Cascade.Sheet.Block

/-!
# Blocks that are found

A block is found where its front holds no opening brace and its body is closed.
No block is found without an opening brace of its own, and no selector text holds
one.
-/

namespace Cascade.Block

/-- A block in front of any text. -/
theorem read_append {front inside : Text} (hfront : '{' ∉ front)
    (hinside : Sheet.Closed ['}'] inside) (rest : Text) :
    read (front ++ '{' :: (inside ++ '}' :: rest)) =
      .ok (⟨Text.trim front, Text.trim inside⟩, rest) := by
  have hskip := Text.skipBlanks_append_cons
    (show Text.isBlank '{' = false by decide) front (inside ++ '}' :: rest)
  have hcut : Text.cutAt? '{'
      (Text.skipBlanks front ++ '{' :: (inside ++ '}' :: rest)) =
        some (Text.skipBlanks front, inside ++ '}' :: rest) :=
    Text.cutAt?_eq_some_iff.mpr ⟨mt Text.mem_of_mem_skipBlanks hfront, rfl⟩
  simp only [read, hskip, hcut, hinside.upTo_append_mark (by decide) rest,
    Text.trim_skipBlanks]

/-- What a block is read from: a front that holds no opening brace, and a closed text
up to the closing one. -/
theorem read_eq_ok_iff {input rest : Text} {block : Block} :
    read input = .ok (block, rest) ↔
      ∃ front inside, '{' ∉ front ∧ Sheet.Closed ['}'] inside ∧
        input = front ++ '{' :: (inside ++ '}' :: rest) ∧
        block = ⟨Text.trim front, Text.trim inside⟩ := by
  constructor
  · intro h
    obtain ⟨blanks, hblanks, hinput, _⟩ := Text.exists_skipBlanks input
    simp only [read] at h
    split at h
    · cases h
    · rename_i selector inside hcut
      obtain ⟨hselector, hstart⟩ := Text.cutAt?_eq_some_iff.mp hcut
      split at h
      · rename_i body after hrun
        cases h
        have happend := Sheet.append_of_upTo '}' inside
        have hclosed := Sheet.closed_upTo '}' inside
        rw [hrun] at happend hclosed
        refine ⟨blanks ++ selector, body, ?_, hclosed, ?_, ?_⟩
        · rintro hmem
          rcases List.mem_append.mp hmem with hmem | hmem
          · exact absurd (hblanks _ hmem) (by decide)
          · exact hselector hmem
        · rw [hinput, hstart, ← happend, List.append_assoc]
        · rw [hblanks.trim_append]
      · cases h
  · rintro ⟨front, inside, hfront, hinside, rfl, rfl⟩
    exact read_append hfront hinside rest

/-- Without an opening brace there is no block. -/
theorem read_of_not_mem {input : Text} (h : '{' ∉ input) :
    read input = .error (.recoverable .openingBrace (Text.skipBlanks input)) := by
  have hcut : Text.cutAt? '{' (Text.skipBlanks input) = none :=
    Text.cutAt?_eq_none_iff.mpr (mt Text.mem_of_mem_skipBlanks h)
  simp only [read, hcut]

/-- Blanks in front of a block do not count. -/
theorem read_blanks_append {blanks : Text} (h : Text.IsBlank blanks) (input : Text) :
    read (blanks ++ input) = read input := by
  simp only [read, Text.skipBlanks_append h]

theorem fst_readRun_blanks_append {blanks : Text} (h : Text.IsBlank blanks)
    (input : Text) : (readRun (blanks ++ input)).1 = (readRun input).1 := by
  have hread := read_blanks_append h input
  cases hfound : read input with
  | ok found =>
      rw [hfound] at hread
      rw [readRun_of_ok hread, readRun_of_ok hfound]
  | error fault =>
      rw [hfound] at hread
      rw [readRun_of_error hread, readRun_of_error hfound]

/-- There is an opening brace for every block. -/
theorem length_readRun_le (input : Text) :
    (readRun input).1.length ≤ input.count '{' := by
  fun_induction readRun input with
  | case1 input block rest hread found ih =>
      obtain ⟨front, inside, _, _, rfl, _⟩ := read_eq_ok_iff.mp hread
      have hle : found.1.length ≤ rest.count '{' := ih
      simp only [List.length_cons, List.count_append, List.count_cons_self,
        List.count_cons_of_ne (show '}' ≠ '{' by decide)]
      omega
  | case2 => exact Nat.zero_le _

/-- No selector text holds an opening brace. -/
theorem not_mem_selector (input : Text) :
    ∀ block ∈ (readRun input).1, '{' ∉ block.selector := by
  fun_induction readRun input with
  | case1 input block rest hread found ih =>
      obtain ⟨front, inside, hfront, _, _, rfl⟩ := read_eq_ok_iff.mp hread
      exact List.forall_mem_cons.mpr ⟨fun hmem => hfront (Text.mem_of_mem_trim hmem), ih⟩
  | case2 => simp

end Cascade.Block
