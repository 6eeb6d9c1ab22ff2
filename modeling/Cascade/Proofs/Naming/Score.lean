import Cascade.Proofs.Naming.WeightState

/-!
# The score of a place

A name decides how a selector is written and never what it weighs.  So the
selectors of a place weigh what `Place.score` makes of the kinds and fragments on
the way to it, and two trees of one skeleton have rules of the same weights.
-/

namespace Cascade

namespace Place

def score (place : Place) : Specificity :=
  (Draft.empty.weightState.along place.path).total

/-- Whatever names are chosen, what a place yields has its score. -/
theorem Yields.specificity_eq {symbols : Symbols} {place : Place} {names : List Text}
    {named : NamedSelector} (h : place.Yields symbols names named)
    (hsingle : ∀ outer ∈ place.path, outer.kind = .raw → outer.names.length = 1)
    (hnames : names ∈ place.namings) : named.specificity = place.score := by
  obtain ⟨draft, hreaches, hfinish⟩ := h
  rw [Draft.specificity_of_finish hfinish, hreaches.weightState_eq hsingle hnames]
  rfl

end Place

namespace Declaration

/-! ## Skeletons -/

mutual

/-- A tree without the texts of its bodies and without names, fragments apart. -/
def skeleton : Declaration → Declaration
  | ⟨kind, names, body, children⟩ =>
      ⟨kind, if kind = .raw then names else [], body.map fun _ => [],
        skeletons children⟩

def skeletons : List Declaration → List Declaration
  | [] => []
  | declaration :: rest => declaration.skeleton :: skeletons rest

end

theorem kind_skeleton (declaration : Declaration) :
    declaration.skeleton.kind = declaration.kind := by
  obtain ⟨kind, names, body, children⟩ := declaration
  rw [skeleton]

theorem names_skeleton {declaration : Declaration} (hraw : declaration.kind = .raw) :
    declaration.skeleton.names = declaration.names := by
  obtain ⟨kind, names, body, children⟩ := declaration
  rw [skeleton]
  exact if_pos hraw

theorem isSome_body_skeleton (declaration : Declaration) :
    declaration.skeleton.body.isSome = declaration.body.isSome := by
  obtain ⟨kind, names, body, children⟩ := declaration
  rw [skeleton, Option.isSome_map]

end Declaration

def Place.skeleton (place : Place) : Place :=
  ⟨place.above.map Declaration.skeleton, place.node.skeleton⟩

theorem WeightState.pass_skeleton (state : WeightState) (outer : Declaration) :
    state.pass outer.skeleton.kind (outer.skeleton.names.headD []) =
      state.pass outer.kind (outer.names.headD []) := by
  rw [Declaration.kind_skeleton]
  by_cases hraw : outer.kind = .raw
  · rw [Declaration.names_skeleton hraw]
  · exact pass_congr state hraw _ _

/-- Neither names nor bodies have a part in the score. -/
theorem Place.score_skeleton (place : Place) : place.skeleton.score = place.score := by
  have hpath : place.skeleton.path = place.path.map Declaration.skeleton :=
    place.path_map Declaration.skeleton
  rw [score, score, hpath, WeightState.along, WeightState.along, List.foldl_map]
  simp only [WeightState.pass_skeleton]

namespace Declaration

theorem skeletons_eq_map (declarations : List Declaration) :
    skeletons declarations = declarations.map skeleton := by
  induction declarations with
  | nil => rfl
  | cons declaration rest ih => rw [skeletons, ih, List.map_cons]

theorem children_skeleton (declaration : Declaration) :
    declaration.skeleton.children = declaration.children.map skeleton := by
  obtain ⟨kind, names, body, children⟩ := declaration
  rw [skeleton, skeletons_eq_map]

theorem places_skeleton (declaration : Declaration) (above : List Declaration) :
    places (above.map skeleton) declaration.skeleton =
      (places above declaration).map Place.skeleton :=
  places_map children_skeleton declaration above

/-- Each fragment of a tree stands alone in its node. -/
def HasSingleFragments (declaration : Declaration) : Prop :=
  ∀ place ∈ places [] declaration,
    place.node.kind = .raw → place.node.names.length = 1

instance (declaration : Declaration) : Decidable declaration.HasSingleFragments :=
  inferInstanceAs (Decidable (∀ place ∈ places [] declaration,
    place.node.kind = .raw → place.node.names.length = 1))

theorem hasSingleFragments_skeleton_iff {declaration : Declaration} :
    declaration.skeleton.HasSingleFragments ↔ declaration.HasSingleFragments := by
  have hplaces := places_skeleton declaration []
  rw [List.map_nil] at hplaces
  rw [HasSingleFragments, hplaces, List.forall_mem_map]
  refine forall₂_congr fun place _ => ?_
  rw [Place.skeleton, kind_skeleton]
  exact imp_congr_right fun hraw => by rw [names_skeleton hraw]

def scores (declaration : Declaration) : List Specificity :=
  ((places [] declaration).filter fun place => place.node.body.isSome).map Place.score

theorem scores_skeleton (declaration : Declaration) :
    declaration.skeleton.scores = declaration.scores := by
  have hplaces := places_skeleton declaration []
  rw [List.map_nil] at hplaces
  have hbody : (fun place : Place => place.node.body.isSome) ∘ Place.skeleton =
      fun place => place.node.body.isSome :=
    funext fun place => isSome_body_skeleton place.node
  have hscore : Place.score ∘ Place.skeleton = Place.score :=
    funext Place.score_skeleton
  calc
    declaration.skeleton.scores
    _ = (((places [] declaration).map Place.skeleton).filter
          fun place => place.node.body.isSome).map Place.score := by
        rw [scores, hplaces]
    _ = declaration.scores := by
        rw [List.filter_map, List.map_map, hbody, hscore, scores]

/-- All selectors of a rule have the score of its place. -/
theorem forall₂_scores {table : SymbolTable} {declaration : Declaration}
    {rules : List Rule} (hsingle : declaration.HasSingleFragments)
    (h : declaration.rules table = .ok rules) :
    List.Forall₂ (fun score rule => ∀ named ∈ rule.selectors,
      named.specificity = score) declaration.scores rules := by
  rw [scores, List.forall₂_map_left_iff]
  refine ((List.forall₂_and_left _ _).mpr
    ⟨fun _ hplace => hplace, forall₂_yields_of_rules h⟩).imp ?_
  rintro place rule ⟨hplace, _, hyields⟩ named hnamed
  obtain ⟨names, hnames, hyield⟩ := exists_of_mem_right hyields hnamed
  have hpath : ∀ outer ∈ place.path, outer.kind = .raw → outer.names.length = 1 :=
    @forall_mem_path declaration (fun node => node.kind = .raw → node.names.length = 1)
      hsingle place (List.mem_of_mem_filter hplace)
  exact hyield.specificity_eq hpath hnames

/-- Trees of one skeleton have rules of the same weight, whatever their other
names and their bodies are and whatever the symbols. -/
theorem specificity_of_skeleton_eq {table other : SymbolTable}
    {first second : Declaration} {rules others : List Rule}
    (hskeleton : first.skeleton = second.skeleton)
    (hsingle : first.HasSingleFragments)
    (hfirst : first.rules table = .ok rules)
    (hsecond : second.rules other = .ok others) :
    List.Forall₂ (fun rule rule' => ∃ weight,
      ∀ named ∈ rule.selectors ++ rule'.selectors, named.specificity = weight)
      rules others := by
  have hsingle' : second.HasSingleFragments := by
    rwa [← hasSingleFragments_skeleton_iff, ← hskeleton,
      hasSingleFragments_skeleton_iff]
  have hscores : first.scores = second.scores := calc
    first.scores = first.skeleton.scores := (scores_skeleton first).symm
    _ = second.skeleton.scores := congrArg scores hskeleton
    _ = second.scores := scores_skeleton second
  have hweights := forall₂_scores hsingle hfirst
  rw [hscores] at hweights
  refine (forall₂_comp hweights.flip (forall₂_scores hsingle' hsecond)).imp ?_
  rintro rule rule' ⟨weight, hrule, hrule'⟩
  exact ⟨weight, List.forall_mem_append.mpr ⟨hrule, hrule'⟩⟩

/-- One tweak for two, an empty name, names for a sibling and wholly different
symbols: the same weights, rule by rule. -/
theorem specificity_of_skeleton_eq_symbols :
    ∃ first second other rules others,
      first = ⟨.tweak, [['a'], ['b']], none, [⟨.part, [['p']], some ['x'], []⟩,
        ⟨.option, [['o']], some [], [⟨.raw, ["&-x:not(&, #i) > li".toList], none,
          [⟨.sibling, [], some [], []⟩]⟩]⟩]⟩ ∧
      second = ⟨.tweak, [['7']], none, [⟨.part, [['p'], []], some [], []⟩,
        ⟨.option, [['o']], some ['y'], [⟨.raw, ["&-x:not(&, #i) > li".toList], none,
          [⟨.sibling, [['z']], some [], []⟩]⟩]⟩]⟩ ∧
      other = ⟨⟨[], "__".toList, "is:".toList, [], [], ['9']⟩, .builtin⟩ ∧
      Declaration.rules .initial first = .ok rules ∧
      Declaration.rules other second = .ok others ∧
      rules.map Rule.selectorText =
        ["#app .\\+a\\.p, #app .\\+b\\.p".toList,
          "html#app .\\+a.\\--o, html#app .\\+b.\\--o".toList,
          ("#app .\\+a.\\--o-x:not(&, #i) > li + li, " ++
            "#app .\\+b.\\--o-x:not(&, #i) > li + li").toList] ∧
      others.map Rule.selectorText =
        ["#\\39  .\\37 __p, #\\39  .\\37 __".toList,
          "html#\\39  .\\37 .is\\:o".toList,
          "#\\39  .\\37 .is\\:o-x:not(&, #i) > li + li".toList] ∧
      List.Forall₂ (fun rule rule' => ∃ weight,
        ∀ named ∈ rule.selectors ++ rule'.selectors, named.specificity = weight)
        rules others := by
  obtain ⟨rules, hrules, htexts⟩ := exists_of_map_eq_ok
    (show (Declaration.rules .initial ⟨.tweak, [['a'], ['b']], none,
      [⟨.part, [['p']], some ['x'], []⟩, ⟨.option, [['o']], some [],
        [⟨.raw, ["&-x:not(&, #i) > li".toList], none,
          [⟨.sibling, [], some [], []⟩]⟩]⟩]⟩).map (·.map Rule.selectorText) = .ok
        ["#app .\\+a\\.p, #app .\\+b\\.p".toList,
          "html#app .\\+a.\\--o, html#app .\\+b.\\--o".toList,
          ("#app .\\+a.\\--o-x:not(&, #i) > li + li, " ++
            "#app .\\+b.\\--o-x:not(&, #i) > li + li").toList] by
      decide +kernel)
  obtain ⟨others, hothers, htexts'⟩ := exists_of_map_eq_ok
    (show (Declaration.rules ⟨⟨[], "__".toList, "is:".toList, [], [], ['9']⟩, .builtin⟩
      ⟨.tweak, [['7']], none, [⟨.part, [['p'], []], some [], []⟩,
        ⟨.option, [['o']], some ['y'], [⟨.raw, ["&-x:not(&, #i) > li".toList], none,
          [⟨.sibling, [['z']], some [], []⟩]⟩]⟩]⟩).map (·.map Rule.selectorText) = .ok
        ["#\\39  .\\37 __p, #\\39  .\\37 __".toList,
          "html#\\39  .\\37 .is\\:o".toList,
          "#\\39  .\\37 .is\\:o-x:not(&, #i) > li + li".toList] by
      decide +kernel)
  exact ⟨_, _, _, rules, others, rfl, rfl, rfl, hrules, hothers, htexts, htexts',
    specificity_of_skeleton_eq (by rfl) (by decide +kernel) hrules hothers⟩

end Declaration

end Cascade
