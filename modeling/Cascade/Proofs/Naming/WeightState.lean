import Cascade.Proofs.Naming.Expansion

/-!
# What of a draft its weight depends on

A `WeightState` is what has to be known of a draft to weigh it: the weight so far, the
weight of the last compound, which a sibling adds again, and what a part and the
end of the way look at.  `WeightState.pass` moves it on by the kind of a declaration and
looks at the text of fragments only, so what a name makes of it depends neither on
the name nor on the symbols.
-/

namespace Cascade

/-! ## The weight of the last compound -/

namespace Selector

def lastWeight? (selector : Selector) : Option Specificity :=
  selector.getLast?.map fun link => Compound.specificity link.compound

theorem lastWeight?_append (links rest : Selector) :
    lastWeight? (links ++ rest) = (lastWeight? rest).or (lastWeight? links) := by
  simp [lastWeight?, List.getLast?_append, Option.map_or]

theorem lastWeight?_push (links : Selector) (combinator : Combinator)
    (compound : Compound) :
    lastWeight? (links.push combinator compound) =
      some (Compound.specificity compound) := by
  simp [lastWeight?, push]

theorem lastWeight?_mapLast {change : Link → Link}
    (weigh : Specificity → Specificity)
    (hchange : ∀ link, Compound.specificity (change link).compound =
      weigh (Compound.specificity link.compound)) (links : Selector) :
    lastWeight? (links.mapLast change) = (lastWeight? links).map weigh := by
  rcases List.eq_nil_or_concat links with rfl | ⟨front, last, rfl⟩
  · rfl
  · simp [lastWeight?, hchange]

theorem lastWeight?_mapLast_combinator (combinator : Combinator) (links : Selector) :
    lastWeight? (links.mapLast fun last => { last with combinator := combinator }) =
      lastWeight? links := by
  rcases List.eq_nil_or_concat links with rfl | ⟨front, last, rfl⟩
  · rfl
  · simp [lastWeight?]

end Selector

/-! ## The state of the weight -/

/-- What of a draft decides the weight of its selectors. -/
@[ext]
structure WeightState where
  pristine : Bool
  scope : Scope
  weight : Specificity
  /-- The weight of the last compound, which a sibling adds again. -/
  last : Option Specificity

def Specificity.ofClass : Specificity := ⟨0, 0, 1, 0⟩

/-- What the first compound of a fragment adds, its parent reference and suffix
left out. -/
def Compound.added : Compound → Compound
  | .parent :: behind => (Draft.splitSuffix behind).2
  | compound => compound

theorem Compound.added_of_hasParent {compound : Compound}
    (h : hasParent compound = false) : added compound = compound := by
  cases compound with
  | nil => rfl
  | cons simple rest =>
      cases simple with
      | parent => cases h
      | _ => rfl

namespace WeightState

def pushClass (state : WeightState) : WeightState :=
  { state with
    pristine := true
    weight := state.weight.add .ofClass
    last := some .ofClass }

def addSelector (state : WeightState) : Selector → WeightState
  | [] => state
  | first :: rest =>
      let own := Compound.specificity (Compound.added first.compound)
      { state with
        pristine := false
        weight := (state.weight.add own).add (Selector.specificity rest)
        last := (Selector.lastWeight? rest).or
          (if Compound.hasParent first.compound then state.last.map (·.add own)
            else some own) }

/-- A declaration of some kind.  Only of a fragment the text is looked at. -/
def pass (state : WeightState) (kind : Kind) (fragment : Text) : WeightState :=
  let passed := { state with scope := state.scope.pass kind }
  match kind with
  | .component | .tweak | .location => passed.pushClass
  | .part =>
      if state.pristine then { passed with last := state.last.map fun _ => .ofClass }
      else passed.pushClass
  | .option =>
      { passed with
        pristine := false
        weight := state.weight.add .ofClass
        last := state.last.map (·.add .ofClass) }
  | .sibling =>
      { passed with weight := state.weight.add (state.last.getD .zero) }
  | .raw =>
      match Selector.ofText fragment with
      | .ok selector => passed.addSelector selector
      | .error _ => passed

def along (state : WeightState) (path : List Declaration) : WeightState :=
  path.foldl (fun state outer => state.pass outer.kind (outer.names.headD [])) state

/-- The weight with the scope compound in front. -/
def total (state : WeightState) : Specificity :=
  state.weight.add
    ⟨0, state.scope.rooted.toNat, 0, state.scope.emitsBoost.toNat⟩

theorem pass_raw (state : WeightState) {fragment : Text} {selector : Selector}
    (h : Selector.ofText fragment = .ok selector) :
    state.pass .raw fragment =
      { state with scope := state.scope.pass .raw }.addSelector selector := by
  simp only [pass, h]

/-- A name is not looked at. -/
theorem pass_congr (state : WeightState) {kind : Kind} (hkind : kind ≠ .raw)
    (name other : Text) : state.pass kind name = state.pass kind other := by
  cases kind with
  | raw => exact absurd rfl hkind
  | _ => rfl

end WeightState

namespace Draft

open Selector (lastWeight?)

def weightState (draft : Draft) : WeightState where
  pristine := draft.pristine
  scope := draft.scope
  weight := draft.tally.specificity
  last := lastWeight? draft.links

variable {symbols : Symbols} {draft next extended last : Draft} {kind : Kind}
  {name : Text}

theorem weightState_pushClass (draft : Draft) (text full : Text) :
    ((draft.pushClass text).settle full).weightState = draft.weightState.pushClass := by
  simp only [weightState, settle, pushClass, Selector.lastWeight?_push]
  rfl

/-- A longer class weighs what a class does. -/
theorem Lengthens.weightState_eq {suffix : Option Text}
    (h : Lengthens draft suffix extended) : extended.weightState = draft.weightState := by
  cases h with
  | none => rfl
  | some hlinks =>
      simp only [weightState, hlinks, Selector.lastWeight?_append]
      simp [lastWeight?, Compound.specificity_append]
      rfl

theorem weightState_appendLinks (draft : Draft) (rest : Selector) :
    (draft.appendLinks rest).weightState =
      { pristine := false
        scope := draft.scope.pass .raw
        weight := draft.weightState.weight.add (Selector.specificity rest)
        last := (lastWeight? rest).or draft.weightState.last } :=
  WeightState.ext rfl rfl (Tally.specificity_countSelector draft.tally rest)
    (Selector.lastWeight?_append draft.links rest)

theorem weightState_appendConditions (draft : Draft) (conditions : Compound)
    (combinator : Combinator) :
    (draft.appendConditions conditions combinator).weightState =
      { draft.weightState with
        weight := draft.weightState.weight.add (Compound.specificity conditions)
        last := draft.weightState.last.map (·.add (Compound.specificity conditions)) } :=
  WeightState.ext rfl rfl (Tally.specificity_countCompound draft.tally conditions)
    (Selector.lastWeight?_mapLast (·.add (Compound.specificity conditions))
      (fun link => Compound.specificity_append link.compound conditions) draft.links)

/-- The state behind a name depends on the kind and on the state before. -/
theorem Passes.weightState_eq (h : Passes symbols draft kind name next) :
    next.weightState = draft.weightState.pass kind name := by
  cases h with
  | component => exact weightState_pushClass draft _ _
  | tweak => exact weightState_pushClass { draft with scope := draft.scope.pass .tweak } _ _
  | location => exact weightState_pushClass draft _ _
  | replace hbase hpristine =>
      have hpass : draft.weightState.pass .part name =
          { draft.weightState with last := draft.weightState.last.map fun _ => .ofClass } :=
        if_pos hpristine
      rw [hpass]
      refine WeightState.ext hpristine.symm rfl rfl ?_
      exact Selector.lastWeight?_mapLast (fun _ => .ofClass) (fun _ => rfl) draft.links
  | part hbase hpristine =>
      have hpass : draft.weightState.pass .part name = draft.weightState.pushClass :=
        if_neg (by simp [weightState, hpristine])
      rw [hpass]
      exact weightState_pushClass draft _ _
  | option =>
      refine WeightState.ext rfl rfl rfl ?_
      exact Selector.lastWeight?_mapLast (·.add .ofClass)
        (fun link => Compound.specificity_append link.compound _) draft.links
  | @sibling name last hlast =>
      have hweight : draft.weightState.last = some (Compound.specificity last.compound) := by
        rw [weightState, lastWeight?, hlast]
        rfl
      refine WeightState.ext rfl rfl ?_ ?_
      · change _ = draft.weightState.weight.add (draft.weightState.last.getD .zero)
        rw [hweight]
        exact Tally.specificity_countCompound draft.tally last.compound
      · exact (Selector.lastWeight?_push draft.links .adjacent last.compound).trans
          hweight.symm
  | @nest fragment first rest hselector _ hparent _ =>
      rw [WeightState.pass_raw _ hselector, weightState_appendLinks, WeightState.addSelector,
        Compound.added_of_hasParent hparent, hparent, if_neg Bool.false_ne_true]
      refine WeightState.ext rfl rfl ?_ ?_
      · exact congrArg (·.add (Selector.specificity rest))
          (Tally.specificity_countCompound draft.tally first.compound)
      · refine congrArg (lastWeight? rest).or ?_
        exact (Selector.lastWeight?_mapLast_combinator _ _).trans
          (Selector.lastWeight?_push draft.links .descendant first.compound)
  | @glue fragment behind conditions combinator suffix rest extended hselector _ _ _
      hsplit hextend _ =>
      have hadded : Compound.added (.parent :: behind) = conditions :=
        congrArg Prod.snd hsplit
      rw [WeightState.pass_raw _ hselector, weightState_appendLinks,
        weightState_appendConditions, hextend.weightState_eq, WeightState.addSelector, hadded]
      refine WeightState.ext rfl ?_ rfl rfl
      exact congrArg (Scope.pass · .raw) hextend.scope_eq

/-- Where every fragment stands alone, a choice of names has no other state at its
end than the way has. -/
theorem Reaches.weightState_eq {path : List Declaration} {names : List Text}
    (h : Reaches symbols draft path names last)
    (hsingle : ∀ outer ∈ path, outer.kind = .raw → outer.names.length = 1)
    (hnames : names ∈ Declaration.namings path) :
    last.weightState = draft.weightState.along path := by
  induction h with
  | refl => rfl
  | @step draft next last outer inner name names hpasses _ ih =>
      obtain ⟨_, hname, _, hrest, heq⟩ := Declaration.mem_namings_cons.mp hnames
      obtain ⟨rfl, rfl⟩ := List.cons.inj heq
      rw [List.forall_mem_cons] at hsingle
      have hpass : draft.weightState.pass outer.kind name =
          draft.weightState.pass outer.kind (outer.names.headD []) := by
        by_cases hraw : outer.kind = .raw
        · obtain ⟨fragment, hfragment⟩ := List.length_eq_one_iff.mp (hsingle.1 hraw)
          rw [Declaration.choices, hraw, hfragment] at hname
          rw [hfragment, List.mem_singleton.mp hname]
          rfl
        · exact WeightState.pass_congr _ hraw _ _
      calc
        last.weightState = next.weightState.along inner := ih hsingle.2 hrest
        _ = (draft.weightState.pass outer.kind (outer.names.headD [])).along inner := by
            rw [hpasses.weightState_eq, hpass]
        _ = draft.weightState.along (outer :: inner) := rfl

/-- The scope compound adds what `WeightState.total` says. -/
theorem specificity_of_finish {rootId body : Text} {named : NamedSelector}
    (h : draft.finish rootId body = .ok named) :
    named.specificity = draft.weightState.total := by
  obtain ⟨compound, hcompound, rfl⟩ := exists_of_map_eq_ok h
  obtain ⟨root, _, rfl⟩ := exists_root_of_scopeCompound hcompound
  have hscope (emits rooted : Bool) :
      Compound.specificity ((if emits then [.element boostElement] else []) ++
        if rooted then [.id root] else []) = ⟨0, rooted.toNat, 0, emits.toNat⟩ := by
    cases emits <;> cases rooted <;> rfl
  calc
    _ = draft.tally.specificity.add (Compound.specificity _) :=
        Tally.specificity_countCompound draft.tally _
    _ = draft.weightState.total := by
        rw [hscope]
        rfl

end Draft

end Cascade
