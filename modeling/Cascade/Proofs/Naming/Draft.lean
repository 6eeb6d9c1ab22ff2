import Cascade.Naming.Finish
import Cascade.Naming.Step
import Cascade.Proofs.Ident.Written
import Cascade.Proofs.Selector.Assembled
import Cascade.Proofs.Selector.Count

/-!
# What a draft keeps

Whatever declarations a draft has passed, its links are assembled and its tally
is the weight of them.  That a part replaces a compound without counting keeps
the tally right because a pristine draft ends with a single class; that options
can be added wherever there is a base needs that there is a link by then.
-/

namespace Cascade

namespace Selector

/-- What the last compound gains in weight, the selector gains. -/
theorem specificity_mapLast {change : Link → Link} {weight : Specificity}
    (hchange : ∀ link, Compound.specificity (change link).compound =
      (Compound.specificity link.compound).add weight)
    {selector : Selector} (hne : selector ≠ []) :
    specificity (selector.mapLast change) = (specificity selector).add weight := by
  obtain ⟨front, last, rfl⟩ : ∃ front last, selector = front ++ [last] :=
    ⟨_, _, (List.dropLast_concat_getLast hne).symm⟩
  calc
    specificity (mapLast change (front ++ [last]))
    _ = (specificity front).add (Compound.specificity (change last).compound) := by
        rw [mapLast_concat, specificity_concat]
    _ = ((specificity front).add (Compound.specificity last.compound)).add weight := by
        rw [hchange, Specificity.add_assoc]
    _ = (specificity (front ++ [last])).add weight := by
        rw [specificity_concat]

/-- A combinator weighs nothing. -/
theorem specificity_mapLast_combinator (combinator : Combinator)
    (selector : Selector) :
    specificity (mapLast (fun last => { last with combinator := combinator })
      selector) = specificity selector := by
  by_cases hne : selector = []
  · rw [hne]
    rfl
  · refine (specificity_mapLast ?_ hne).trans (Specificity.add_zero _)
    exact fun _ => (Specificity.add_zero _).symm

theorem specificity_push (selector : Selector) (combinator : Combinator)
    (compound : Compound) :
    specificity (selector.push combinator compound) =
      (specificity selector).add (Compound.specificity compound) := by
  rw [push, specificity_concat, specificity_mapLast_combinator]

end Selector

namespace Draft

open Selector (Assembled)

variable {holds : Simple → Prop} {draft next : Draft}

/-- What is true of every draft that a walk comes to, its conditions being such
as `holds` admits. -/
structure Built (holds : Simple → Prop) (draft : Draft) : Prop where
  assembled : draft.links = [] ∨ Assembled holds draft.links
  fresh : draft.pristine = true → ∃ front name combinator,
    draft.links = front ++ [⟨[.className name], combinator⟩]
  placed : draft.base.isSome = true → draft.links ≠ []
  counted : draft.tally.specificity = Selector.specificity draft.links

theorem isClosed_of_escaped {name text : Text} (h : escaped name = .ok text) :
    Ident.IsClosed text := by
  unfold escaped at h
  split at h
  · rename_i htext
    cases h
    exact Ident.isClosed_of_escape? htext
  · cases h

theorem built_empty : empty.Built holds where
  assembled := .inl rfl
  fresh := nofun
  placed := nofun
  counted := rfl

theorem Built.enter (h : draft.Built holds) (display : Text) :
    (draft.enter display).Built holds :=
  ⟨h.assembled, h.fresh, h.placed, h.counted⟩

/-- What is done to the scope is done at the end. -/
theorem Built.withScope (h : draft.Built holds) (scope : Scope) :
    { draft with scope := scope }.Built holds :=
  ⟨h.assembled, h.fresh, h.placed, h.counted⟩

theorem Built.assembled_of_ne_nil (h : draft.Built holds)
    (hne : draft.links ≠ []) : Assembled holds draft.links :=
  h.assembled.resolve_left hne

/-! ## Classes -/

theorem Built.pushClass (h : draft.Built holds) {text : Text}
    (htext : holds (.className text)) (name : Text) :
    ((draft.pushClass text).settle name).Built holds ∧
      ((draft.pushClass text).settle name).links ≠ [] := by
  have hassembled : Assembled holds
      (draft.links.push .descendant [.className text]) :=
    Assembled.push h.assembled (by simp) trivial
      (List.forall_mem_singleton.mpr htext)
  refine ⟨⟨.inr hassembled, fun _ => ⟨_, text, .none, rfl⟩,
    fun _ => hassembled.ne_nil, ?_⟩, hassembled.ne_nil⟩
  change draft.tally.addClass.specificity = Selector.specificity
    (draft.links.push .descendant [.className text])
  rw [Tally.specificity_addClass, h.counted, Selector.specificity_push]
  rfl

theorem Built.openBlock (h : draft.Built holds)
    (hclass : ∀ text, Ident.IsClosed text → holds (.className text))
    {name : Text} (hopen : draft.openBlock name = .ok next) :
    next.Built holds ∧ next.links ≠ [] := by
  obtain ⟨text, htext, rfl⟩ := exists_of_map_eq_ok hopen
  exact h.pushClass (hclass text (isClosed_of_escaped htext)) name

/-- A part's class takes the place of another class, which weighs the same. -/
theorem Built.replaceClass (h : draft.Built holds)
    (hpristine : draft.pristine = true) {text : Text}
    (htext : holds (.className text)) (name : Text) :
    ({ draft with
        links := draft.links.mapLast fun last =>
          { last with compound := [.className text] } }.settle name).Built holds ∧
      draft.links.mapLast (fun last =>
        { last with compound := [.className text] }) ≠ [] := by
  obtain ⟨front, old, combinator, hlinks⟩ := h.fresh hpristine
  have hassembled := h.assembled_of_ne_nil (by simp [hlinks])
  have hcounted := h.counted
  rw [hlinks] at hassembled hcounted
  have hreplaced := hassembled.replace_last hassembled.last
    [.className text] trivial (List.forall_mem_singleton.mpr htext)
  rw [hlinks, Selector.mapLast_concat]
  refine ⟨⟨.inr hreplaced, fun _ => ⟨front, text, combinator, rfl⟩,
    fun _ => hreplaced.ne_nil, ?_⟩, hreplaced.ne_nil⟩
  change draft.tally.specificity =
    Selector.specificity (front ++ [⟨[.className text], combinator⟩])
  rw [hcounted, Selector.specificity_concat, Selector.specificity_concat]
  rfl

theorem Built.openPart (h : draft.Built holds)
    (hclass : ∀ text, Ident.IsClosed text → holds (.className text))
    {symbol name : Text} (hopen : draft.openPart symbol name = .ok next) :
    next.Built holds ∧ next.links ≠ [] := by
  unfold Draft.openPart at hopen
  split at hopen
  · cases hopen
  · rename_i base _
    obtain ⟨text, htext, rfl⟩ := exists_of_map_eq_ok hopen
    have hholds := hclass text (isClosed_of_escaped htext)
    by_cases hpristine : draft.pristine = true
    · rw [if_pos hpristine]
      exact h.replaceClass hpristine hholds (base ++ symbol ++ name)
    · rw [if_neg hpristine]
      exact h.pushClass hholds (base ++ symbol ++ name)

theorem Built.ne_nil_of_base (h : draft.Built holds)
    (hbase : ¬ draft.base.isNone = true) : draft.links ≠ [] :=
  h.placed (Option.isSome_iff_ne_none.mpr fun hnone =>
    hbase (Option.isNone_iff_eq_none.mpr hnone))

theorem Built.addOption (h : draft.Built holds)
    (hclass : ∀ text, Ident.IsClosed text → holds (.className text))
    {name : Text} (hadd : draft.addOption name = .ok next) :
    next.Built holds ∧ next.links ≠ [] := by
  unfold Draft.addOption at hadd
  split at hadd
  · cases hadd
  · rename_i hbase
    obtain ⟨text, htext, rfl⟩ := exists_of_map_eq_ok hadd
    have hholds := hclass text (isClosed_of_escaped htext)
    have hne := h.ne_nil_of_base hbase
    have hextended := (h.assembled_of_ne_nil hne).addClass hholds
    refine ⟨⟨.inr hextended, (absurd · Bool.false_ne_true),
      fun _ => hextended.ne_nil, ?_⟩, hextended.ne_nil⟩
    change draft.tally.addClass.specificity =
      Selector.specificity (draft.links.mapLast _)
    rw [Selector.specificity_mapLast
      (fun link => Compound.specificity_append link.compound [.className text]) hne,
      Tally.specificity_addClass, h.counted]
    rfl

/-- A copy of the last compound weighs what the last compound does. -/
theorem Built.repeatLast (h : draft.Built holds)
    (hrepeat : draft.repeatLast = .ok next) :
    next.Built holds ∧ next.links ≠ [] := by
  unfold Draft.repeatLast at hrepeat
  split at hrepeat
  · cases hrepeat
  · rename_i last hlast
    cases hrepeat
    have hmem := List.mem_of_getLast? hlast
    have hassembled := h.assembled_of_ne_nil (List.ne_nil_of_mem hmem)
    have hpushed := Assembled.push h.assembled
      (by simp : Combinator.adjacent ≠ .none) (hassembled.joined last hmem)
      (hassembled.pieces last hmem)
    refine ⟨⟨.inr hpushed, ?_, fun _ => hpushed.ne_nil, ?_⟩, hpushed.ne_nil⟩
    · intro hpristine
      obtain ⟨front, name, combinator, hlinks⟩ := h.fresh hpristine
      rw [hlinks, List.getLast?_concat] at hlast
      cases hlast
      exact ⟨_, name, .none, rfl⟩
    · change (draft.tally.countCompound last.compound).specificity =
        Selector.specificity (draft.links.push .adjacent last.compound)
      rw [Tally.specificity_countCompound, h.counted, Selector.specificity_push]

end Draft

end Cascade
