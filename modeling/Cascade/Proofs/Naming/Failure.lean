import Cascade.Proofs.Naming.Expansion
import Mathlib.Data.List.Induction
import Mathlib.Data.List.ProdSigma

/-!
# Where a tree fails

A walk is no more than what happens at the places of the tree, one after the other: the
drafts that lead to a place are multiplied by its names, and finished if selectors are
finished there.  So the first place that goes wrong decides the error of a tree, and there
the first draft and name that do not go together, or the first draft that cannot be
finished.  A misplaced declaration is reported with the way to that place and nothing else,
since the trail of a draft is the way that the draft has come.
-/

namespace Cascade

/-- Where an error reports a misplaced declaration, it reports it at the end of a trail. -/
def NamingError.IsAt (trail : List Text) : NamingError → Prop
  | .misplaced other _ => other = trail
  | _ => True

theorem isAt_of_escaped {name : Text} {cause : NamingError} (trail : List Text)
    (h : escaped name = .error cause) : cause.IsAt trail := by
  unfold escaped at h
  split at h <;> cases h
  trivial

namespace Draft

variable {symbols : Symbols} {draft next : Draft} {cause : NamingError} {name : Text}

/-! ## The trail of a draft -/

/-- What one name makes of a draft keeps its trail. -/
theorem Passes.trail_eq {kind : Kind} (h : Passes symbols draft kind name next) :
    next.trail = draft.trail := by
  have hsame : Passes symbols draft kind name (next.withTrail draft.trail) :=
    h.withTrail draft.trail
  have hnext : next = next.withTrail draft.trail := h.unique hsame
  rw [hnext]
  rfl

theorem isAt_openBlock (h : draft.openBlock name = .error cause) :
    cause.IsAt draft.trail :=
  isAt_of_escaped _ (map_eq_error_iff.mp h)

theorem isAt_openPart {symbol : Text} (h : draft.openPart symbol name = .error cause) :
    cause.IsAt draft.trail := by
  unfold openPart at h
  split at h
  · cases h
    rfl
  · exact isAt_of_escaped _ (map_eq_error_iff.mp h)

theorem isAt_addOption (h : draft.addOption name = .error cause) :
    cause.IsAt draft.trail := by
  unfold addOption at h
  split at h
  · cases h
    rfl
  · exact isAt_of_escaped _ (map_eq_error_iff.mp h)

theorem isAt_repeatLast (h : draft.repeatLast = .error cause) :
    cause.IsAt draft.trail := by
  unfold repeatLast at h
  split at h <;> cases h
  rfl

theorem isAt_extendClass {suffix : Text} (h : draft.extendClass suffix = .error cause) :
    cause.IsAt draft.trail := by
  unfold extendClass at h
  split at h <;> cases h
  rfl

theorem isAt_glue {first : Link} (h : draft.glue first = .error cause) :
    cause.IsAt draft.trail := by
  unfold glue at h
  split at h
  · cases h
    rfl
  · split at h
    · rename_i behind _
      split at h
      · cases h
        rfl
      · cases hsplit : splitSuffix behind with
        | mk suffix conditions =>
            simp only [hsplit] at h
            split at h
            · rename_i other hextend
              cases h
              cases suffix with
              | none => cases hextend
              | some suffix => exact isAt_extendClass hextend
            · split at h <;> cases h
              rfl
    · cases h
      rfl

theorem isAt_nest {first : Link} (h : draft.nest first = .error cause) :
    cause.IsAt draft.trail := by
  unfold nest at h
  split at h <;> cases h
  rfl

theorem isAt_addSelector {selector : Selector} (h : draft.addSelector selector = .error cause) :
    cause.IsAt draft.trail := by
  unfold addSelector at h
  split at h
  · cases h
  · split at h
    · cases h
      rfl
    · split at h
      · cases h
        rfl
      · have hjoin := map_eq_error_iff.mp h
        split at hjoin
        · exact isAt_glue hjoin
        · exact isAt_nest hjoin

theorem isAt_addFragment (h : draft.addFragment name = .error cause) :
    cause.IsAt draft.trail := by
  unfold addFragment at h
  split at h
  · exact isAt_addSelector h
  · cases h
    trivial

/-- A name that cannot be applied is reported with the trail of the draft. -/
theorem isAt_apply {kind : Kind} (h : draft.apply symbols kind name = .error cause) :
    cause.IsAt draft.trail := by
  cases kind with
  | component => exact isAt_openBlock h
  | tweak =>
      exact @isAt_openBlock { draft with scope := draft.scope.pass .tweak } _ _ h
  | location => exact isAt_openBlock h
  | part => exact isAt_openPart h
  | option => exact isAt_addOption h
  | raw => exact isAt_addFragment h
  | sibling => exact isAt_repeatLast h

/-- Finishing a draft reports no misplaced declaration. -/
theorem isAt_finish {rootId body : Text} (trail : List Text)
    (h : draft.finish rootId body = .error cause) : cause.IsAt trail := by
  have hscope := map_eq_error_iff.mp h
  unfold scopeCompound at hscope
  cases hrooted : draft.scope.rooted with
  | true =>
      rw [hrooted, if_pos rfl] at hscope
      exact isAt_of_escaped _ (map_eq_error_iff.mp hscope)
  | false =>
      rw [hrooted, if_neg Bool.false_ne_true] at hscope
      cases hscope

end Draft

namespace Declaration

variable {symbols : Symbols} {declaration : Declaration} {drafts expanded : List Draft}
  {cause : NamingError} {above : List Declaration}

/-! ## What fails at one declaration -/

def applyTo (symbols : Symbols) (declaration : Declaration) (pair : Draft × Text) :
    Except NamingError Draft :=
  (pair.1.enter declaration.display).apply symbols declaration.kind pair.2

/-- Drafts are multiplied pair by pair, the drafts in the outer place. -/
theorem expand_of_choices_ne_nil (h : declaration.choices ≠ []) :
    declaration.expand symbols drafts =
      (drafts.product declaration.choices).mapM (declaration.applyTo symbols) := by
  have hextend : declaration.extend symbols = fun draft =>
      declaration.choices.mapM fun name => declaration.applyTo symbols (draft, name) := by
    funext draft
    rw [extend, if_neg (by simpa using h)]
    rfl
  rw [expand, hextend]
  exact map_flatten_mapM_mapM (fun draft name => declaration.applyTo symbols (draft, name))
    drafts declaration.choices

theorem expand_of_choices_eq_nil (h : declaration.choices = []) (draft : Draft)
    (rest : List Draft) :
    declaration.expand symbols (draft :: rest) =
      .error ((draft.enter declaration.display).misplaced .noNames) := by
  have hextend : declaration.extend symbols draft =
      .error ((draft.enter declaration.display).misplaced .noNames) := by
    simp [extend, h]
  rw [expand, List.mapM_cons, hextend]
  rfl

/-- The first draft that cannot be finished decides what goes wrong at a visit. -/
theorem visit_result_eq_error_iff :
    (declaration.visit symbols drafts).result = .error cause ↔
      declaration.isVisited = true ∧ ∃ before draft after, drafts = before ++ draft :: after ∧
        (∀ earlier ∈ before, ∃ named,
          earlier.finish symbols.rootId (declaration.body.getD []) = .ok named) ∧
        draft.finish symbols.rootId (declaration.body.getD []) = .error cause := by
  rw [← mapM_eq_error_iff]
  cases hvisited : declaration.isVisited with
  | true =>
      rw [visit, if_pos (by simpa [isVisited] using hvisited)]
      cases drafts.mapM fun draft : Draft =>
        draft.finish symbols.rootId (declaration.body.getD []) <;>
          simp [Trace.result, Trace.failed]
  | false =>
      rw [visit_eq_empty hvisited]
      simp

theorem exists_visit_result_iff :
    (∃ visits, (declaration.visit symbols drafts).result = .ok visits) ↔
      (declaration.isVisited = true → ∀ draft ∈ drafts, ∃ named,
        draft.finish symbols.rootId (declaration.body.getD []) = .ok named) := by
  cases hvisited : declaration.isVisited with
  | true =>
      simp only [visit_result_eq_ok_iff hvisited, ← mapM_eq_ok_iff]
      rw [← exists_mapM_eq_ok_iff]
      simp
  | false =>
      rw [visit_eq_empty hvisited]
      simp

/-! ## A walk as a list of places -/

def draftsAlong (symbols : Symbols) (path : List Declaration) :
    Except NamingError (List Draft) :=
  path.foldlM (fun drafts declaration => declaration.expand symbols drafts) [.empty]

theorem draftsAlong_concat (above : List Declaration) (declaration : Declaration) :
    draftsAlong symbols (above ++ [declaration]) =
      draftsAlong symbols above >>= declaration.expand symbols := by
  unfold draftsAlong
  rw [List.foldlM_append]
  refine bind_congr fun drafts => ?_
  exact bind_pure (declaration.expand symbols drafts)

/-- A declaration leaves drafts behind, and adds itself to the way that they have come. -/
theorem trail_of_expand {trail : List Text} (hne : drafts ≠ [])
    (htrail : ∀ draft ∈ drafts, draft.trail = trail)
    (h : declaration.expand symbols drafts = .ok expanded) :
    expanded ≠ [] ∧ ∀ next ∈ expanded, next.trail = trail ++ [declaration.display] := by
  obtain ⟨first, rest, rfl⟩ := List.exists_cons_of_ne_nil hne
  have hchoices : declaration.choices ≠ [] := by
    intro hnil
    rw [expand_of_choices_eq_nil hnil] at h
    cases h
  rw [expand_of_choices_ne_nil hchoices, mapM_eq_ok_iff] at h
  constructor
  · rintro rfl
    obtain ⟨name, hname⟩ := List.exists_mem_of_ne_nil _ hchoices
    obtain ⟨next, hnext, _⟩ := exists_of_mem_left h
      (List.mem_product.mpr ⟨List.mem_cons_self, hname⟩)
    cases hnext
  · intro next hnext
    obtain ⟨⟨draft, name⟩, hpair, happly⟩ := exists_of_mem_right h hnext
    rw [(Draft.apply_eq_ok_iff.mp happly).trail_eq,
      ← htrail draft (List.mem_product.mp hpair).1]
    rfl

/-- There is a draft for every way, and its trail is the way that it has come. -/
theorem draftsAlong_spec (h : draftsAlong symbols above = .ok drafts) :
    drafts ≠ [] ∧ ∀ draft ∈ drafts, draft.trail = above.map display := by
  induction above using List.reverseRecOn generalizing drafts with
  | nil =>
      cases h
      exact ⟨List.cons_ne_nil _ _, List.forall_mem_singleton.mpr rfl⟩
  | append_singleton above declaration ih =>
      rw [draftsAlong_concat] at h
      cases hbefore : draftsAlong symbols above with
      | error cause =>
          rw [hbefore] at h
          cases h
      | ok before =>
          rw [hbefore] at h
          obtain ⟨hne, htrail⟩ := ih hbefore
          rw [List.map_append]
          exact trail_of_expand hne htrail h

end Declaration

namespace Place

open Declaration (draftsAlong draftsAlong_concat draftsAlong_spec display)

variable {symbols : Symbols} {place : Place} {drafts : List Draft} {cause : NamingError}

/-- What happens at a place, to the drafts that lead there. -/
def outcome (symbols : Symbols) (place : Place) : Except NamingError (List Visit) := do
  let drafts ← draftsAlong symbols place.above
  let expanded ← place.node.expand symbols drafts
  (place.node.visit symbols expanded).result

/-- At a place every draft goes with every name, and the drafts that come from this can be
finished where selectors are. -/
def Succeeds (symbols : Symbols) (place : Place) : Prop :=
  ∃ drafts expanded, draftsAlong symbols place.above = .ok drafts ∧
    place.node.expand symbols drafts = .ok expanded ∧
    (place.node.isVisited = true → ∀ draft ∈ expanded, ∃ named,
      draft.finish symbols.rootId (place.node.body.getD []) = .ok named)

inductive Fails (symbols : Symbols) (place : Place) : NamingError → Prop
  /-- There are drafts, but no names for them. -/
  | noNames {drafts : List Draft} : draftsAlong symbols place.above = .ok drafts →
      place.node.choices = [] →
      Fails symbols place (.misplaced (place.path.map display) .noNames)
  /-- A draft and a name do not go together.  All pairs with an earlier draft do, and all
  pairs of the same draft with an earlier name. -/
  | name {drafts : List Draft} {before after : List (Draft × Text)} {pair : Draft × Text}
      {cause : NamingError} : draftsAlong symbols place.above = .ok drafts →
      drafts.product place.node.choices = before ++ pair :: after →
      (∀ earlier ∈ before, ∃ next, place.node.applyTo symbols earlier = .ok next) →
      place.node.applyTo symbols pair = .error cause → Fails symbols place cause
  /-- All drafts go with all names, but a draft that comes from this cannot be finished.  All
  earlier ones can. -/
  | finish {drafts before after : List Draft} {draft : Draft} {cause : NamingError} :
      draftsAlong symbols place.above = .ok drafts → place.node.isVisited = true →
      place.node.expand symbols drafts = .ok (before ++ draft :: after) →
      (∀ earlier ∈ before, ∃ named,
        earlier.finish symbols.rootId (place.node.body.getD []) = .ok named) →
      draft.finish symbols.rootId (place.node.body.getD []) = .error cause →
      Fails symbols place cause

theorem outcome_eq (h : draftsAlong symbols place.above = .ok drafts) :
    place.outcome symbols = place.node.expand symbols drafts >>= fun expanded =>
      (place.node.visit symbols expanded).result := by
  rw [outcome, h]
  rfl

theorem exists_outcome_iff :
    (∃ visits, place.outcome symbols = .ok visits) ↔ place.Succeeds symbols := by
  unfold outcome Succeeds
  simp only [← Declaration.exists_visit_result_iff]
  cases draftsAlong symbols place.above with
  | error cause => simp [bind, Except.bind]
  | ok drafts =>
      cases hexpand : place.node.expand symbols drafts <;>
        simp [bind, Except.bind, hexpand]

/-- Every draft that leads to a place enters it by the same way. -/
theorem trail_enter (h : draftsAlong symbols place.above = .ok drafts) {draft : Draft}
    (hdraft : draft ∈ drafts) :
    (draft.enter place.node.display).trail = place.path.map display := by
  rw [Draft.enter, (draftsAlong_spec h).2 draft hdraft, path, List.map_append]
  rfl

theorem expand_of_choices_eq_nil (h : draftsAlong symbols place.above = .ok drafts)
    (hchoices : place.node.choices = []) :
    place.node.expand symbols drafts =
      .error (.misplaced (place.path.map display) .noNames) := by
  obtain ⟨draft, rest, rfl⟩ := List.exists_cons_of_ne_nil (draftsAlong_spec h).1
  rw [Declaration.expand_of_choices_eq_nil hchoices, Draft.misplaced,
    trail_enter h List.mem_cons_self]

theorem fails_of_expand_eq_error (h : draftsAlong symbols place.above = .ok drafts)
    (hexpand : place.node.expand symbols drafts = .error cause) :
    place.Fails symbols cause := by
  by_cases hchoices : place.node.choices = []
  · rw [expand_of_choices_eq_nil h hchoices] at hexpand
    cases hexpand
    exact .noNames h hchoices
  · rw [Declaration.expand_of_choices_ne_nil hchoices, mapM_eq_error_iff] at hexpand
    obtain ⟨before, pair, after, hpairs, hbefore, hpair⟩ := hexpand
    exact .name h hpairs hbefore hpair

/-- At a place to which drafts lead, the first pair that does not go together decides the
error, or the first draft that cannot be finished. -/
theorem outcome_eq_error_iff (h : draftsAlong symbols place.above = .ok drafts) :
    place.outcome symbols = .error cause ↔ place.Fails symbols cause := by
  rw [outcome_eq h]
  constructor
  · intro herror
    cases hexpand : place.node.expand symbols drafts with
    | error other =>
        rw [hexpand] at herror
        obtain rfl : other = cause := Except.error.inj herror
        exact fails_of_expand_eq_error h hexpand
    | ok expanded =>
        rw [hexpand] at herror
        obtain ⟨hvisited, before, draft, after, rfl, hbefore, hfinish⟩ :=
          Declaration.visit_result_eq_error_iff.mp herror
        exact .finish h hvisited hexpand hbefore hfinish
  · intro hfails
    cases hfails with
    | noNames _ hchoices =>
        rw [expand_of_choices_eq_nil h hchoices]
        rfl
    | @name _ before after pair _ h' hpairs hbefore hpair =>
        obtain rfl := Except.ok.inj (h.symm.trans h')
        have hmem : pair ∈ drafts.product place.node.choices :=
          hpairs ▸ List.mem_append_cons_self
        have hchoices : place.node.choices ≠ [] :=
          List.ne_nil_of_mem (List.mem_product.mp hmem).2
        rw [Declaration.expand_of_choices_ne_nil hchoices,
          mapM_eq_error_iff.mpr ⟨_, _, _, hpairs, hbefore, hpair⟩]
        rfl
    | finish h' hvisited hexpand hbefore hfinish =>
        obtain rfl := Except.ok.inj (h.symm.trans h')
        rw [hexpand]
        exact Declaration.visit_result_eq_error_iff.mpr
          ⟨hvisited, _, _, _, rfl, hbefore, hfinish⟩

/-- A place that comes to its end leaves drafts for the places right below it. -/
theorem Succeeds.exists_draftsAlong (h : place.Succeeds symbols) {child : Place}
    (hchild : place.IsParent child) :
    ∃ drafts, draftsAlong symbols child.above = .ok drafts := by
  obtain ⟨drafts, expanded, hdrafts, hexpand, _⟩ := h
  refine ⟨expanded, ?_⟩
  rw [hchild.1, path, draftsAlong_concat, hdrafts]
  exact hexpand

/-- A misplaced declaration is reported with the way to its place. -/
theorem Fails.isAt (h : place.Fails symbols cause) :
    cause.IsAt (place.path.map display) := by
  cases h with
  | noNames => rfl
  | @name drafts before after pair _ hdrafts hpairs _ hpair =>
      have hmem : pair ∈ drafts.product place.node.choices :=
        hpairs ▸ List.mem_append_cons_self
      rw [← trail_enter hdrafts (List.mem_product.mp hmem).1]
      exact Draft.isAt_apply hpair
  | finish _ _ _ _ hfinish => exact Draft.isAt_finish _ hfinish

end Place

namespace Declaration

variable {symbols : Symbols} {cause : NamingError}

mutual

/-- The answer of a walk is what happens at the places of the tree, in their order. -/
theorem walk_result_eq (declaration : Declaration) (above : List Declaration)
    {drafts : List Draft} (h : draftsAlong symbols above = .ok drafts) :
    (walk symbols drafts declaration).result =
      ((places above declaration).mapM (Place.outcome symbols)).map List.flatten := by
  match declaration with
  | ⟨kind, names, body, children⟩ =>
      have houtcome := @Place.outcome_eq symbols
        ⟨above, ⟨kind, names, body, children⟩⟩ drafts h
      rw [places_eq, List.mapM_cons, houtcome, walk]
      cases hexpand : expand symbols ⟨kind, names, body, children⟩ drafts with
      | error cause => rfl
      | ok expanded =>
          have hdrafts : draftsAlong symbols (above ++ [⟨kind, names, body, children⟩]) =
              .ok expanded := by
            rw [draftsAlong_concat, h]
            exact hexpand
          have hbelow := walkAll_result_eq children _ hdrafts
          rw [Trace.result_andThen, hbelow]
          cases hvisit : (visit symbols ⟨kind, names, body, children⟩ expanded).result with
          | error cause => simp [bind, Except.bind, hvisit, Except.map]
          | ok visits =>
              cases (allPlaces (above ++ [⟨kind, names, body, children⟩])
                  children).mapM (Place.outcome symbols) <;>
                simp [bind, Except.bind, hvisit, Except.map, pure, Except.pure]

theorem walkAll_result_eq (declarations : List Declaration) (above : List Declaration)
    {drafts : List Draft} (h : draftsAlong symbols above = .ok drafts) :
    (walkAll symbols drafts declarations).result =
      ((allPlaces above declarations).mapM (Place.outcome symbols)).map List.flatten := by
  match declarations with
  | [] => rfl
  | declaration :: rest =>
      rw [walkAll, Trace.result_andThen, walk_result_eq declaration above h,
        walkAll_result_eq rest above h, allPlaces, List.mapM_append]
      cases (places above declaration).mapM (Place.outcome symbols) with
      | error cause => rfl
      | ok visits =>
          cases (allPlaces above rest).mapM (Place.outcome symbols) <;>
            simp [bind, Except.bind, Except.map, pure, Except.pure]

end

/-- If all places before a place come to their end, there are drafts for it. -/
theorem exists_draftsAlong_of_places_eq {declaration : Declaration} {place : Place}
    {before after : List Place}
    (h : places [] declaration = before ++ place :: after)
    (hbefore : ∀ earlier ∈ before, earlier.Succeeds symbols) :
    ∃ drafts, draftsAlong symbols place.above = .ok drafts := by
  rcases exists_parent_of_places_eq declaration [] h with rfl | ⟨parent, hparent, hchild⟩
  · exact ⟨_, rfl⟩
  · exact (hbefore parent hparent).exists_draftsAlong hchild

/-! ## Main result -/

/-- The error of a tree is that of the first place, in pre-order, at which something goes
wrong.  A misplaced declaration is reported with the nodes from the root down to this
place, whatever stands beside the way. -/
theorem rules_eq_error_iff (table : SymbolTable) (declaration : Declaration)
    (cause : NamingError) :
    declaration.rules table = .error cause ↔
      ∃ before place after, places [] declaration = before ++ place :: after ∧
        (∀ earlier ∈ before, earlier.Succeeds table.current) ∧
        place.Fails table.current cause ∧
        ∀ trail reason, cause = .misplaced trail reason →
          trail = place.path.map display ∧
          trailText trail = List.intercalate " > ".toList (place.path.map display) := by
  rw [rules, map_eq_error_iff, walk_result_eq declaration [] rfl, map_eq_error_iff,
    mapM_eq_error_iff]
  simp only [Place.exists_outcome_iff]
  constructor
  -- The parent of a place stands before it, so there are drafts for the first place
  -- that fails.
  · rintro ⟨before, place, after, hplaces, hbefore, herror⟩
    obtain ⟨drafts, hdrafts⟩ := exists_draftsAlong_of_places_eq hplaces hbefore
    have hfails := (Place.outcome_eq_error_iff hdrafts).mp herror
    refine ⟨before, place, after, hplaces, hbefore, hfails, ?_⟩
    rintro trail reason rfl
    have htrail : trail = place.path.map display := hfails.isAt
    exact ⟨htrail, congrArg trailText htrail⟩
  · rintro ⟨before, place, after, hplaces, hbefore, hfails, _⟩
    obtain ⟨drafts, hdrafts⟩ := exists_draftsAlong_of_places_eq hplaces hbefore
    exact ⟨before, place, after, hplaces, hbefore,
      (Place.outcome_eq_error_iff hdrafts).mpr hfails⟩

/-- The first fragment goes with both components, and the second one with neither. -/
theorem rules_eq_error_iff_fragment :
    ∃ declaration place cause,
      declaration = ⟨.component, [['a'], ['b']], none,
        [⟨.option, [['o']], some ['x'], []⟩,
          ⟨.raw, ["& > c".toList, "d > &".toList], none, []⟩]⟩ ∧
      place ∈ places [] declaration ∧ place.Fails .builtin cause ∧
      place.path.map display =
        ["component(a, b)".toList, "raw(& > c, d > &)".toList] ∧
      cause.message = ("invalid nesting at `component(a, b) > raw(& > c, d > &)`: " ++
        "`&` may only open a fragment").toList := by
  have hrules : Declaration.rules .initial ⟨.component, [['a'], ['b']], none,
      [⟨.option, [['o']], some ['x'], []⟩,
        ⟨.raw, ["& > c".toList, "d > &".toList], none, []⟩]⟩ =
      .error (.misplaced ["component(a, b)".toList, "raw(& > c, d > &)".toList]
        .parentBehindCombinator) := by
    decide +kernel
  obtain ⟨before, place, after, hplaces, _, hfails, htrail⟩ :=
    (rules_eq_error_iff _ _ _).mp hrules
  have hplace : place ∈ before ++ place :: after := List.mem_append_cons_self
  exact ⟨_, place, _, rfl, hplaces ▸ hplace, hfails, (htrail _ _ rfl).1.symm,
    by decide +kernel⟩

end Declaration

end Cascade
