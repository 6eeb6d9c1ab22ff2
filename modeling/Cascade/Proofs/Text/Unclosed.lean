import Cascade.Proofs.Text.Replace

/-!
# Groups that are left open

A backslash takes the closing parenthesis behind it along.  A text that leaves
groups open stays open in front of every text that closes only what it opens
itself, so no reader of a group comes to an end there.
-/

namespace Cascade.Enclosed.Nesting

/-- A text that leaves some groups open and closes none it found open. -/
def OpensGroups (count : Nat) (text : Text) : Prop :=
  ∀ stack, Outside stack → run ⟨stack, false⟩ text =
    some ⟨List.replicate count .group ++ stack, false⟩

theorem outside_replicate (count : Nat) {stack : List Enclosure}
    (h : Outside stack) : Outside (List.replicate count .group ++ stack) := by
  cases count with
  | zero => exact h
  | succ count => exact outside_group _

theorem KeepsStackOutside.opensGroups {text : Text} (h : KeepsStackOutside text) :
    OpensGroups 0 text := h

theorem OpensGroups.append {first second : Text} {count count' : Nat}
    (h : OpensGroups count first) (h' : OpensGroups count' second) :
    OpensGroups (count' + count) (first ++ second) := by
  intro stack hstack
  rw [run_append, h stack hstack, Option.bind_some,
    h' _ (outside_replicate count hstack), ← List.append_assoc,
    List.replicate_append_replicate]

/-- A parenthesis behind a text that leaves groups open closes one of them. -/
theorem OpensGroups.group {content : Text} {count : Nat} (h : OpensGroups count content) :
    OpensGroups count ('(' :: content ++ [')']) := by
  intro stack hstack
  rw [List.cons_append, run_cons, step_of_ne (by decide),
    turn_parenthesis hstack, Option.map_some, Option.bind_some,
    run_append, h _ (outside_group stack), Option.bind_some,
    List.append_cons, ← List.replicate_succ', List.replicate_succ]
  rfl

/-- Without its last space a balanced text can only end with a backslash. -/
theorem run_trim {content : Text} (hcontent : Balanced content)
    (htrim : ¬ Balanced (Text.trim content)) :
    run start (Text.trim content) = some ⟨[], true⟩ := by
  rw [balanced_iff_keepsStackOutside, keepsStackOutside_iff] at hcontent htrim
  obtain ⟨front, back, htext, hfront, hback⟩ := Text.exists_trim content
  rw [htext, List.append_assoc] at hcontent
  have hrun : run start (Text.trim content ++ back) = some start := by
    rwa [run_append, start, keepsStack_spaces hfront, Option.bind_some] at hcontent
  obtain ⟨⟨stack, escaped⟩, hmiddle, hend⟩ := run_append_eq_some_iff.mp hrun
  rw [hmiddle]
  cases escaped with
  | false =>
      rw [keepsStack_spaces hback stack] at hend
      exact absurd (hmiddle.trans hend) htrim
  | true =>
      cases back with
      | nil => cases hend
      | cons c back =>
          rw [List.forall_mem_cons] at hback
          obtain ⟨middle, hstep, hend⟩ := run_cons_eq_some_iff.mp hend
          obtain ⟨_, rfl⟩ := step_escaped_eq_some hstep
          rw [keepsStack_spaces hback.2 stack] at hend
          cases hend
          rfl

/-- The parenthesis behind a trailing backslash closes nothing. -/
theorem opensGroups_of_run {content : Text} (h : run start content = some ⟨[], true⟩) :
    OpensGroups 1 ('(' :: content ++ [')']) := by
  intro stack hstack
  have hrun := run_frame (outside_group stack) h
  rw [List.cons_append, run_cons, step_of_ne (by decide),
    turn_parenthesis hstack, Option.map_some, Option.bind_some,
    run_append]
  rw [List.nil_append] at hrun
  rw [hrun]
  rfl

/-- The content of a group that ends closes whatever it opens, so the group's
parenthesis closes nothing inside. -/
theorem run_eq_none_of_groupContent {input content rest : Text}
    (h : groupContent input = (content, ')' :: rest)) :
    run start input = none := by
  have houtside := balanced_iff_keepsStackOutside.mp (balanced_of_groupContent h)
  have happend := append_of_groupContent input
  rw [h] at happend
  rw [← happend, run_append, keepsStackOutside_iff.mp houtside]
  rfl

end Cascade.Enclosed.Nesting
