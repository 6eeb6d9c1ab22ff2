import Cascade.Proofs.Naming.Expansion

/-!
# What a policy groups

A policy walks all its targets and keeps the selectors of their leaves.  Which
these are does not depend on bodies, so they can be had from rules as well: from
those of the targets once the leaves and nothing else have bodies.  The rule of a
policy holds the selectors of these rules in their order, under one body.
-/

namespace Cascade

def NamedSelector.withBody (named : NamedSelector) (body : Text) : NamedSelector :=
  { named with body := body }

/-! ## Bodies in a tree -/

namespace Declaration

mutual

def withBodies (choose : Declaration → Option Text) : Declaration → Declaration
  | ⟨kind, names, body, children⟩ =>
      ⟨kind, names, choose ⟨kind, names, body, children⟩,
        allWithBodies choose children⟩

def allWithBodies (choose : Declaration → Option Text) :
    List Declaration → List Declaration
  | [] => []
  | declaration :: rest =>
      declaration.withBodies choose :: allWithBodies choose rest

end

def bodiless (declaration : Declaration) : Declaration :=
  declaration.withBodies fun _ => none

def withLeafBodies (body : Declaration → Text) (declaration : Declaration) :
    Declaration :=
  declaration.withBodies fun node => if node.isLeaf then some (body node) else none

/-- The same tree, but with bodies at its leaves only, whatever they are. -/
structure IsRebodied (declaration other : Declaration) : Prop where
  bodiless_eq : declaration.bodiless = other.bodiless
  isSome_body : ∀ place ∈ places [] other, place.node.body.isSome = place.node.isLeaf

variable {choose : Declaration → Option Text}

theorem allWithBodies_eq_map (declarations : List Declaration) :
    allWithBodies choose declarations = declarations.map (withBodies choose) := by
  induction declarations with
  | nil => rfl
  | cons declaration rest ih => rw [allWithBodies, ih, List.map_cons]

theorem kind_withBodies (declaration : Declaration) :
    (declaration.withBodies choose).kind = declaration.kind := by
  obtain ⟨kind, names, body, children⟩ := declaration
  rw [withBodies]

theorem choices_withBodies (declaration : Declaration) :
    (declaration.withBodies choose).choices = declaration.choices := by
  obtain ⟨kind, names, body, children⟩ := declaration
  rw [withBodies, choices, choices]

theorem body_withBodies (declaration : Declaration) :
    (declaration.withBodies choose).body = choose declaration := by
  obtain ⟨kind, names, body, children⟩ := declaration
  rw [withBodies]

theorem children_withBodies (declaration : Declaration) :
    (declaration.withBodies choose).children =
      declaration.children.map (withBodies choose) := by
  obtain ⟨kind, names, body, children⟩ := declaration
  rw [withBodies, allWithBodies_eq_map]

theorem isLeaf_withBodies (declaration : Declaration) :
    (declaration.withBodies choose).isLeaf = declaration.isLeaf := by
  rw [isLeaf, children_withBodies, List.isEmpty_map, isLeaf]

mutual

theorem bodiless_withBodies (declaration : Declaration) :
    (declaration.withBodies choose).bodiless = declaration.bodiless := by
  match declaration with
  | ⟨kind, names, body, children⟩ =>
      have hbelow := allBodiless_withBodies children
      rw [bodiless, withBodies, withBodies, hbelow, bodiless, withBodies]

theorem allBodiless_withBodies (declarations : List Declaration) :
    allWithBodies (fun _ => none) (allWithBodies choose declarations) =
      allWithBodies (fun _ => none) declarations := by
  match declarations with
  | [] => rfl
  | declaration :: rest =>
      have hfirst := bodiless_withBodies declaration
      rw [bodiless, bodiless] at hfirst
      rw [allWithBodies, allWithBodies, hfirst, allBodiless_withBodies rest,
        allWithBodies]

end

/-- Any bodies will do for the leaves. -/
theorem isRebodied_withLeafBodies (body : Declaration → Text)
    (declaration : Declaration) :
    declaration.IsRebodied (declaration.withLeafBodies body) := by
  refine ⟨(bodiless_withBodies declaration).symm, ?_⟩
  have hplaces := @places_map (withLeafBodies body) children_withBodies declaration []
  rw [List.map_nil] at hplaces
  rw [hplaces, List.forall_mem_map]
  intro place _
  change ((withBodies _ place.node).body).isSome = (withBodies _ place.node).isLeaf
  rw [body_withBodies, isLeaf_withBodies]
  cases place.node.isLeaf <;> rfl

end Declaration

/-! ## Places that differ in their bodies -/

open Declaration (bodiless)

namespace Draft

/-- A body is only written to a selector, and never decides whether there is one. -/
theorem finish_of_finish {draft : Draft} {rootId body : Text} {named : NamedSelector}
    (h : draft.finish rootId body = .ok named) (body' : Text) :
    draft.finish rootId body' = .ok (named.withBody body') := by
  obtain ⟨scope, hscope, rfl⟩ := exists_of_map_eq_ok h
  rw [finish, hscope]
  rfl

end Draft

namespace Place

def SameWithoutBodies (place other : Place) : Prop :=
  place.map bodiless = other.map bodiless

variable {place other : Place} {symbols : Symbols} {names : List Text}

/-- What bodies have no part in is the same on both ways. -/
theorem SameWithoutBodies.map_path {α : Type} (h : place.SameWithoutBodies other)
    {value : Declaration → α}
    (hvalue : ∀ node : Declaration, value node.bodiless = value node) :
    place.path.map value = other.path.map value := by
  have hcomp : value ∘ bodiless = value := funext hvalue
  calc
    place.path.map value = (place.map bodiless).path.map value := by
      rw [path_map, List.map_map, hcomp]
    _ = (other.map bodiless).path.map value := by rw [h]
    _ = other.path.map value := by rw [path_map, List.map_map, hcomp]

theorem SameWithoutBodies.namings_eq (h : place.SameWithoutBodies other) :
    place.namings = other.namings :=
  Declaration.namings_congr (h.map_path Declaration.choices_withBodies)

theorem SameWithoutBodies.value_eq {α : Type} (h : place.SameWithoutBodies other)
    {value : Declaration → α}
    (hvalue : ∀ node : Declaration, value node.bodiless = value node) :
    value place.node = value other.node := by
  have hnode : place.node.bodiless = other.node.bodiless := congrArg Place.node h
  rw [← hvalue place.node, hnode, hvalue other.node]

theorem SameWithoutBodies.isLeaf_eq (h : place.SameWithoutBodies other) :
    place.node.isLeaf = other.node.isLeaf :=
  h.value_eq Declaration.isLeaf_withBodies

/-- Places that bodies alone tell apart yield the same selectors, for bodies of
their own. -/
theorem SameWithoutBodies.yields (h : place.SameWithoutBodies other) {named : NamedSelector}
    (hyields : place.Yields symbols names named) :
    other.Yields symbols names (named.withBody (other.node.body.getD [])) := by
  obtain ⟨draft, hreaches, hfinish⟩ := hyields
  exact ⟨draft, hreaches.congr (h.map_path Declaration.kind_withBodies),
    Draft.finish_of_finish hfinish _⟩

theorem SameWithoutBodies.withBody_eq (h : place.SameWithoutBodies other)
    {named named' : NamedSelector}
    (hnamed : place.Yields symbols names named)
    (hnamed' : other.Yields symbols names named') (body : Text) :
    named.withBody body = named'.withBody body := by
  obtain rfl := (h.yields hnamed).unique hnamed'
  rfl

theorem SameWithoutBodies.isNameable (h : place.SameWithoutBodies other)
    (hnameable : place.IsNameable symbols) : other.IsNameable symbols := by
  have hchoices : place.node.choices = other.node.choices :=
    h.value_eq Declaration.choices_withBodies
  refine ⟨hchoices ▸ hnameable.1, fun hleaf names hnames => ?_⟩
  obtain ⟨named, hnamed⟩ := hnameable.2 (h.isLeaf_eq.trans hleaf) names
    (h.namings_eq ▸ hnames)
  exact ⟨_, h.yields hnamed⟩

end Place

namespace Declaration

variable {table : SymbolTable} {declaration other : Declaration}
  {leaves : List NamedSelector} {rules : List Rule}

/-- The places of two trees that differ in their bodies correspond. -/
theorem forall₂_sameWithoutBodies (h : declaration.bodiless = other.bodiless) :
    List.Forall₂ Place.SameWithoutBodies (places [] declaration) (places [] other) := by
  have hmap (tree : Declaration) :
      places [] tree.bodiless = (places [] tree).map (Place.map bodiless) :=
    places_map children_withBodies tree []
  refine map_eq_map_iff_forall₂.mp ?_
  rw [← hmap, h, hmap]

/-- Bodies have no part in whether there are selectors. -/
theorem IsRebodied.exists_rules (h : declaration.IsRebodied other)
    (hleaves : declaration.leaves table = .ok leaves) :
    ∃ rules, other.rules table = .ok rules := by
  have hnameable := exists_leaves_iff.mp ⟨leaves, hleaves⟩
  refine exists_rules_iff.mpr fun place hplace => ?_
  obtain ⟨place', hplace', hsame⟩ :=
    exists_of_mem_right (forall₂_sameWithoutBodies h.bodiless_eq) hplace
  exact hsame.isNameable (hnameable place' hplace')

/-- The leaf selectors of a tree are those in the rules of its leaves, once these have
bodies and no other node has one. -/
theorem IsRebodied.map_withBody_eq (h : declaration.IsRebodied other)
    (hleaves : declaration.leaves table = .ok leaves)
    (hrules : other.rules table = .ok rules) (body : Text) :
    leaves.map (·.withBody body) =
      (rules.flatMap Rule.selectors).map (·.withBody body) := by
  obtain ⟨groups, rfl, hgroups⟩ := exists_forall₂_yields_of_leaves hleaves
  have hyields := forall₂_yields_of_rules hrules
  rw [List.filter_congr h.isSome_body] at hyields
  have hsame : List.Forall₂ Place.SameWithoutBodies
      ((places [] declaration).filter fun place => place.node.isLeaf)
      ((places [] other).filter fun place => place.node.isLeaf) :=
    List.rel_filter (fun _ _ hsame => iff_of_eq (congrArg (· = true) hsame.isLeaf_eq))
      (forall₂_sameWithoutBodies h.bodiless_eq)
  have hgroup : groups.map (List.map (·.withBody body)) =
      rules.map fun rule => rule.selectors.map (·.withBody body) := by
    refine map_eq_map_iff_forall₂.mpr
      ((forall₂_comp (forall₂_comp hgroups.flip hsame) hyields).imp ?_)
    rintro group rule ⟨place', ⟨place, hgroup, hsame⟩, _, hrule⟩
    rw [hsame.namings_eq] at hgroup
    refine map_eq_map_iff_forall₂.mpr ((forall₂_comp hgroup.flip hrule).imp ?_)
    rintro named named' ⟨names, hnamed, hnamed'⟩
    exact hsame.withBody_eq hnamed hnamed' body
  rw [List.map_flatten, List.map_flatMap, hgroup, List.flatMap_def]

/-- The same for several trees, one behind the other. -/
theorem exists_rules_of_rebodied {declarations others : List Declaration}
    {groups : List (List NamedSelector)}
    (h : List.Forall₂ IsRebodied declarations others)
    (hleaves : declarations.mapM (Declaration.leaves table) = .ok groups) (body : Text) :
    ∃ lists, others.mapM (Declaration.rules table) = .ok lists ∧
      groups.flatten.map (·.withBody body) =
        (lists.flatten.flatMap Rule.selectors).map (·.withBody body) := by
  have hall := mapM_eq_ok_iff.mp hleaves
  clear hleaves
  induction h generalizing groups with
  | nil =>
      cases hall
      exact ⟨[], rfl, rfl⟩
  | cons hfirst _ ih =>
      cases hall with
      | cons hhere hrest =>
          obtain ⟨rules, hrules⟩ := hfirst.exists_rules hhere
          obtain ⟨lists, hlists, hbelow⟩ := ih hrest
          refine ⟨rules :: lists, ?_, ?_⟩
          · rw [List.mapM_cons, hrules, hlists]
            rfl
          · rw [List.flatten_cons, List.map_append, hfirst.map_withBody_eq hhere hrules,
              hbelow, List.flatten_cons, List.flatMap_append, List.map_append]

end Declaration

/-! ## The rule of a policy -/

theorem Declaration.isEmpty_flatten_of_leaves {table : SymbolTable}
    {declarations : List Declaration} {groups : List (List NamedSelector)}
    (h : List.Forall₂ (fun declaration leaves =>
      Declaration.leaves table declaration = .ok leaves) declarations groups) :
    groups.flatten.isEmpty = declarations.isEmpty := by
  cases h with
  | nil => rfl
  | cons hfirst _ => simp [leaves_ne_nil hfirst]

/-- What the visits of several trees give is given tree by tree, one behind the other. -/
theorem Declaration.result_walkAll_map {α : Type} {symbols : Symbols}
    {f : List Visit → List α} (hnil : f [] = [])
    (happend : ∀ here after, f (here ++ after) = f here ++ f after)
    (declarations : List Declaration) :
    (walkAll symbols [.empty] declarations).result.map f =
      (declarations.mapM fun declaration =>
        (walk symbols [.empty] declaration).result.map f).map List.flatten := by
  induction declarations with
  | nil => exact congrArg Except.ok hnil
  | cons declaration rest ih =>
      rw [walkAll, Trace.result_andThen, List.mapM_cons]
      cases (walk symbols [.empty] declaration).result with
      | error cause => rfl
      | ok here =>
          cases hrest : (walkAll symbols [.empty] rest).result with
          | error cause =>
              rw [hrest] at ih
              rw [map_eq_error_iff.mp ih.symm]
              rfl
          | ok after =>
              rw [hrest] at ih
              obtain ⟨groups, hgroups, hflatten⟩ := exists_of_map_eq_ok ih.symm
              rw [hgroups]
              change Except.ok (f (here ++ after)) = Except.ok (f here ++ groups.flatten)
              rw [hflatten, happend]

/-- The leaf selectors of several trees are put one behind the other. -/
theorem Declaration.result_walkAll_map_allLeaves {table : SymbolTable}
    (declarations : List Declaration) :
    (walkAll table.current [.empty] declarations).result.map Visit.allLeaves =
      (declarations.mapM (Declaration.leaves table)).map List.flatten :=
  result_walkAll_map rfl (fun _ _ => List.flatMap_append) declarations

namespace Policy

variable {table : SymbolTable} {policy : Policy}

theorem ruleOf_eq (visits : List Visit) :
    policy.ruleOf visits =
      if (Visit.allLeaves visits).isEmpty then none
      else some (Rule.group (Visit.allLeaves visits) policy.body) := by
  rw [ruleOf]
  cases Visit.allLeaves visits <;> rfl

/-- A policy succeeds with its targets, and then its rule holds all their leaf
selectors; only without targets it has none. -/
theorem rule_eq (table : SymbolTable) (policy : Policy) :
    policy.rule table =
      (policy.targets.mapM (Declaration.leaves table)).map fun groups =>
        if policy.targets.isEmpty then none
        else some (Rule.group groups.flatten policy.body) := by
  have hrule : policy.rule table =
      ((Declaration.walkAll table.current [.empty] policy.targets).result.map
        Visit.allLeaves).map fun leaves =>
          if leaves.isEmpty then none else some (Rule.group leaves policy.body) := by
    rw [rule, trace]
    cases (Declaration.walkAll table.current [.empty] policy.targets).result with
    | error cause => rfl
    | ok visits => exact congrArg Except.ok (ruleOf_eq visits)
  rw [hrule, Declaration.result_walkAll_map_allLeaves]
  cases hgroups : policy.targets.mapM (Declaration.leaves table) with
  | error cause => rfl
  | ok groups =>
      have hempty := Declaration.isEmpty_flatten_of_leaves (mapM_eq_ok_iff.mp hgroups)
      simp only [Except.map, hempty]

/-- A policy succeeds exactly if all its targets do, and fails like the first of them
that fails.  It has no rule exactly if it has no targets, as every target has a leaf.
Else its rule holds, target by target, the selectors of the rules that there are once
bodies stand at the leaves only, whatever they are, and gives them its own body. -/
theorem rule_groups_leaves (table : SymbolTable) (policy : Policy) :
    ((∃ result, policy.rule table = .ok result) ↔
        ∀ target ∈ policy.targets, ∃ leaves, target.leaves table = .ok leaves) ∧
      (∀ cause, policy.rule table = .error cause ↔
        ∃ before target after, policy.targets = before ++ target :: after ∧
          (∀ other ∈ before, ∃ leaves, other.leaves table = .ok leaves) ∧
          target.leaves table = .error cause) ∧
      (policy.rule table = .ok none ↔ policy.targets = []) ∧
      (∀ target ∈ policy.targets, target.leaves table ≠ .ok []) ∧
      (∃ others, List.Forall₂ Declaration.IsRebodied policy.targets others) ∧
      ∀ rule, policy.rule table = .ok (some rule) →
        rule.body = policy.body ∧
        ∀ others, List.Forall₂ Declaration.IsRebodied policy.targets others →
          ∃ lists, others.mapM (Declaration.rules table) = .ok lists ∧
            rule.selectors = (lists.flatten.flatMap Rule.selectors).map
              (·.withBody policy.body) := by
  rw [rule_eq]
  refine ⟨?succeeds, ?fails, ?empty, ?leaf, ?rebodied, ?grouped⟩
  case succeeds =>
    rw [exists_map_eq_ok_iff, exists_mapM_eq_ok_iff]
  case fails =>
    intro cause
    rw [map_eq_error_iff, mapM_eq_error_iff]
  case empty =>
    constructor
    · intro h
      obtain ⟨groups, _, hnone⟩ := exists_of_map_eq_ok h
      cases htargets : policy.targets with
      | nil => rfl
      | cons target rest => simp [htargets] at hnone
    · intro htargets
      rw [htargets]
      rfl
  case leaf =>
    exact fun target _ hnil => Declaration.leaves_ne_nil hnil rfl
  case rebodied =>
    refine ⟨policy.targets.map (Declaration.withLeafBodies fun _ => policy.body), ?_⟩
    exact List.forall₂_map_right_iff.mpr (List.forall₂_same.mpr fun target _ =>
      Declaration.isRebodied_withLeafBodies _ target)
  case grouped =>
    intro rule hrule
    obtain ⟨groups, hgroups, hrule⟩ := exists_of_map_eq_ok hrule
    cases htargets : policy.targets.isEmpty with
    | true => simp [htargets] at hrule
    | false =>
        simp only [htargets, Bool.false_eq_true, if_false, Option.some.injEq] at hrule
        obtain rfl := hrule
        exact ⟨rfl, fun others hothers =>
          Declaration.exists_rules_of_rebodied hothers hgroups policy.body⟩

/-- Bodies above a leaf and at it are given up, and a tweak keeps its place behind two
leaves of another target. -/
theorem rule_groups_leaves_bodies :
    ∃ (policy : Policy) (others : List Declaration) (rule : Rule) (lists : List (List Rule)),
      policy = ⟨['n'], ['b'], [⟨.component, [['c']], some ['x'],
          [⟨.part, [['p']], none, []⟩, ⟨.option, [['o']], some ['y'], []⟩]⟩,
        ⟨.tweak, [['t']], some ['z'], []⟩]⟩ ∧
      others = [⟨.component, [['c']], none,
          [⟨.part, [['p']], some ['u'], []⟩, ⟨.option, [['o']], some ['v'], []⟩]⟩,
        ⟨.tweak, [['t']], some [], []⟩] ∧
      policy.rule .initial = .ok (some rule) ∧
      rule.selectorText = ".c\\.p, html .c.\\--o, #app .\\+t".toList ∧
      others.mapM (Declaration.rules .initial) = .ok lists ∧
      rule.selectors = (lists.flatten.flatMap Rule.selectors).map
        (·.withBody policy.body) := by
  have hrule : Policy.rule .initial ⟨['n'], ['b'], [⟨.component, [['c']], some ['x'],
      [⟨.part, [['p']], none, []⟩, ⟨.option, [['o']], some ['y'], []⟩]⟩,
      ⟨.tweak, [['t']], some ['z'], []⟩]⟩ =
      .ok (some ⟨[⟨[⟨[.className "c\\.p".toList], .none⟩], ⟨0, 1, 0⟩, ['b']⟩,
        ⟨[⟨[.element boostElement], .descendant⟩,
          ⟨[.className ['c'], .className "\\--o".toList], .none⟩], ⟨0, 2, 1⟩, ['b']⟩,
        ⟨[⟨[.id "app".toList], .descendant⟩,
          ⟨[.className "\\+t".toList], .none⟩], ⟨1, 1, 0⟩, ['b']⟩], ['b']⟩) := by
    decide +kernel
  obtain ⟨_, _, _, _, _, hgrouped⟩ := rule_groups_leaves _ _
  obtain ⟨lists, hlists, hselectors⟩ := (hgrouped _ hrule).2
    [⟨.component, [['c']], none,
      [⟨.part, [['p']], some ['u'], []⟩, ⟨.option, [['o']], some ['v'], []⟩]⟩,
      ⟨.tweak, [['t']], some [], []⟩]
    (.cons ⟨rfl, by decide +kernel⟩ (.cons ⟨rfl, by decide +kernel⟩ .nil))
  exact ⟨_, _, _, lists, rfl, rfl, hrule, by decide +kernel, hlists, hselectors⟩

end Policy

end Cascade
