import Mathlib.Data.List.Forall2

/-!
# Lists computed value by value

A list of results is one result for each input, in their order.  What relates
the members of two lists is passed on from one list to the next.
-/

namespace Cascade

section Related

variable {α β γ : Type} {r : α → β → Prop} {s : β → γ → Prop}
  {inputs : List α} {values : List β} {results : List γ}

theorem exists_of_mem_right (h : List.Forall₂ r inputs values) {value : β}
    (hvalue : value ∈ values) : ∃ input ∈ inputs, r input value := by
  induction h with
  | nil => cases hvalue
  | cons hfirst _ ih =>
      rcases List.mem_cons.mp hvalue with rfl | hvalue
      · exact ⟨_, List.mem_cons_self, hfirst⟩
      · obtain ⟨input, hinput, hr⟩ := ih hvalue
        exact ⟨input, List.mem_cons_of_mem _ hinput, hr⟩

theorem exists_of_mem_left (h : List.Forall₂ r inputs values) {input : α}
    (hinput : input ∈ inputs) : ∃ value ∈ values, r input value :=
  exists_of_mem_right h.flip hinput

theorem forall₂_comp (h : List.Forall₂ r inputs values)
    (h' : List.Forall₂ s values results) :
    List.Forall₂ (fun input result => ∃ value, r input value ∧ s value result)
      inputs results := by
  induction h generalizing results with
  | nil =>
      cases h'
      exact .nil
  | cons hfirst _ ih =>
      cases h' with
      | cons hfirst' hrest' => exact .cons ⟨_, hfirst, hfirst'⟩ (ih hrest')

/-- Two lists are mapped to the same values exactly if their members are. -/
theorem map_eq_map_iff_forall₂ {f : α → γ} {g : β → γ} :
    inputs.map f = values.map g ↔
      List.Forall₂ (fun input value => f input = g value) inputs values := by
  rw [← List.forall₂_eq_eq_eq, List.forall₂_map_left_iff, List.forall₂_map_right_iff]

end Related

/-- A list has a last member with some property, unless none has it. -/
theorem forall_not_or_exists_last {α : Type} (holds : α → Prop) (list : List α) :
    (∀ value ∈ list, ¬ holds value) ∨
      ∃ before value after, list = before ++ value :: after ∧ holds value ∧
        ∀ other ∈ after, ¬ holds other := by
  induction list with
  | nil => exact .inl (by simp)
  | cons value rest ih =>
      rcases ih with hnone | ⟨before, other, after, rfl, hother, hafter⟩
      · by_cases hvalue : holds value
        · exact .inr ⟨[], value, rest, rfl, hvalue, hnone⟩
        · exact .inl (List.forall_mem_cons.mpr ⟨hvalue, hnone⟩)
      · exact .inr ⟨value :: before, other, after, rfl, hother, hafter⟩

section Computed

variable {ε α β γ : Type} {f g : α → Except ε β} {inputs : List α} {values : List β}

theorem mapM_congr (h : ∀ input ∈ inputs, f input = g input) :
    inputs.mapM f = inputs.mapM g := by
  induction inputs with
  | nil => rfl
  | cons input inputs ih =>
      rw [List.forall_mem_cons] at h
      rw [List.mapM_cons, List.mapM_cons, h.1, ih h.2]

theorem mapM_eq_ok_iff :
    inputs.mapM f = .ok values ↔
      List.Forall₂ (fun input value => f input = .ok value) inputs values := by
  induction inputs generalizing values with
  | nil =>
      rw [List.forall₂_nil_left_iff, List.mapM_nil]
      exact ⟨fun h => (Except.ok.inj h).symm, fun h => h ▸ rfl⟩
  | cons input inputs ih =>
      rw [List.mapM_cons, List.forall₂_cons_left_iff]
      simp only [← ih]
      cases f input with
      | error cause => simp [bind, Except.bind]
      | ok value =>
          cases inputs.mapM f <;>
            simp [bind, Except.bind, pure, Except.pure, eq_comm]

/-- A list of results is there as soon as every single result is. -/
theorem exists_mapM_eq_ok
    (h : ∀ input ∈ inputs, ∃ value, f input = .ok value) :
    ∃ values, inputs.mapM f = .ok values := by
  induction inputs with
  | nil => exact ⟨[], rfl⟩
  | cons input inputs ih =>
      rw [List.forall_mem_cons] at h
      obtain ⟨value, hvalue⟩ := h.1
      obtain ⟨values, hvalues⟩ := ih h.2
      exact ⟨value :: values,
        mapM_eq_ok_iff.mpr (.cons hvalue (mapM_eq_ok_iff.mp hvalues))⟩

theorem exists_mapM_eq_ok_iff :
    (∃ values, inputs.mapM f = .ok values) ↔
      ∀ input ∈ inputs, ∃ value, f input = .ok value := by
  constructor
  · rintro ⟨values, hvalues⟩ input hinput
    obtain ⟨value, _, hvalue⟩ := exists_of_mem_left (mapM_eq_ok_iff.mp hvalues) hinput
    exact ⟨value, hvalue⟩
  · exact exists_mapM_eq_ok

/-- The first input that fails decides the error, and none before it does. -/
theorem mapM_eq_error_iff {cause : ε} :
    inputs.mapM f = .error cause ↔
      ∃ before input after, inputs = before ++ input :: after ∧
        (∀ other ∈ before, ∃ value, f other = .ok value) ∧ f input = .error cause := by
  constructor
  · intro h
    induction inputs with
    | nil => cases h
    | cons first rest ih =>
        rw [List.mapM_cons] at h
        cases hfirst : f first with
        | error other =>
            rw [hfirst] at h
            obtain rfl := Except.error.inj h
            exact ⟨[], first, rest, rfl, nofun, hfirst⟩
        | ok value =>
            have hrest : rest.mapM f = .error cause := by
              rw [hfirst] at h
              revert h
              cases rest.mapM f <;> simp [bind, Except.bind, pure, Except.pure]
            obtain ⟨before, input, after, rfl, hbefore, hinput⟩ := ih hrest
            exact ⟨first :: before, input, after, rfl,
              List.forall_mem_cons.mpr ⟨⟨value, hfirst⟩, hbefore⟩, hinput⟩
  · rintro ⟨before, input, after, rfl, hbefore, hinput⟩
    obtain ⟨values, hvalues⟩ := exists_mapM_eq_ok hbefore
    rw [List.mapM_append, hvalues, List.mapM_cons, hinput]
    rfl

/-- What is computed input by input, and for each of them from some further inputs, is
computed pair by pair, the first component in the outer place. -/
theorem map_flatten_mapM_mapM (h : α → γ → Except ε β) (inputs : List α)
    (others : List γ) :
    (inputs.mapM fun input => others.mapM (h input)).map List.flatten =
      (inputs.product others).mapM fun pair => h pair.1 pair.2 := by
  induction inputs with
  | nil => rfl
  | cons input inputs ih =>
      have hproduct : (input :: inputs).product others =
          others.map (Prod.mk input) ++ inputs.product others := rfl
      have hfirst : (others.map (Prod.mk input)).mapM (fun pair => h pair.1 pair.2) =
          others.mapM (h input) := List.mapM_map
      rw [hproduct, List.mapM_append, hfirst, ← ih, List.mapM_cons]
      cases others.mapM (h input) with
      | error cause => rfl
      | ok values => cases inputs.mapM fun input => others.mapM (h input) <;> rfl

/-- Every value of a list was computed from some input. -/
theorem exists_of_mem_mapM (h : inputs.mapM f = .ok values) :
    values.length = inputs.length ∧
      ∀ value ∈ values, ∃ input ∈ inputs, f input = .ok value := by
  have hall := mapM_eq_ok_iff.mp h
  exact ⟨hall.length_eq.symm, fun value => exists_of_mem_right hall⟩

end Computed

end Cascade
