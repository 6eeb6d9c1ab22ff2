import Cascade.Proofs.Naming.Place
import Cascade.Proofs.Naming.Step
import Cascade.Proofs.Naming.Walk

/-!
# A tree is the chains in it

Drafts are multiplied at every declaration, and still each of them is the work of
one choice of names.  `Reaches` follows such a choice from draft to draft; the
drafts that a walk holds at a node are those that follow the choices for the way
down, one for each choice and in their order.  So nothing that a walk finishes
depends on other names, on bodies or on trees next to the way.
-/

namespace Cascade

/-! ## Following one choice of names -/

namespace Draft

/-- What a draft becomes when one name of each of some nested declarations is
applied to it, the outermost first. -/
inductive Reaches (symbols : Symbols) :
    Draft → List Declaration → List Text → Draft → Prop
  | refl {draft : Draft} : Reaches symbols draft [] [] draft
  | step {draft next last : Draft} {outer : Declaration}
      {inner : List Declaration} {name : Text} {names : List Text} :
      Passes symbols draft outer.kind name next →
      Reaches symbols next inner names last →
      Reaches symbols draft (outer :: inner) (name :: names) last

variable {symbols : Symbols} {draft next last other : Draft}
  {path inner : List Declaration} {outer : Declaration} {name : Text}
  {names : List Text}

theorem Passes.unique {kind : Kind} (h : Passes symbols draft kind name next)
    (h' : Passes symbols draft kind name other) : next = other :=
  Except.ok.inj ((apply_eq_ok_iff.mpr h).symm.trans (apply_eq_ok_iff.mpr h'))

theorem Reaches.unique (h : Reaches symbols draft path names last)
    (h' : Reaches symbols draft path names other) : last = other := by
  induction h with
  | refl =>
      cases h'
      rfl
  | step hpasses _ ih =>
      cases h' with
      | step hpasses' hreaches' =>
          obtain rfl := hpasses.unique hpasses'
          exact ih hreaches'

/-- Which draft follows a choice is a matter of kinds. -/
theorem Reaches.congr (h : Reaches symbols draft path names last)
    {other : List Declaration}
    (hkinds : path.map Declaration.kind = other.map Declaration.kind) :
    Reaches symbols draft other names last := by
  induction h generalizing other with
  | refl =>
      obtain rfl := List.map_eq_nil_iff.mp hkinds.symm
      exact .refl
  | step hpasses _ ih =>
      obtain ⟨outer, inner, rfl, hkind, hinner⟩ := List.map_eq_cons_iff.mp hkinds.symm
      exact .step (hkind ▸ hpasses) (ih hinner.symm)

theorem Reaches.length_eq (h : Reaches symbols draft path names last) :
    names.length = path.length := by
  induction h with
  | refl => rfl
  | step _ _ ih => rw [List.length_cons, List.length_cons, ih]

theorem reaches_append_iff :
    Reaches symbols draft (path ++ inner) names last ↔
      ∃ front back next, names = front ++ back ∧
        Reaches symbols draft path front next ∧
        Reaches symbols next inner back last := by
  constructor
  · intro h
    induction path generalizing draft names with
    | nil => exact ⟨[], names, draft, rfl, .refl, h⟩
    | cons outer path ih =>
        cases h with
        | step hpasses hreaches =>
            obtain ⟨front, back, next, rfl, hfront, hback⟩ := ih hreaches
            exact ⟨_ :: front, back, next, rfl, .step hpasses hfront, hback⟩
  · rintro ⟨front, back, next, rfl, hfront, hback⟩
    induction hfront with
    | refl => exact hback
    | step hpasses _ ih => exact .step hpasses (ih hback)

/-- The last name of a choice is applied last. -/
theorem reaches_concat_iff :
    Reaches symbols draft (path ++ [outer]) (names ++ [name]) last ↔
      ∃ next, Reaches symbols draft path names next ∧
        Passes symbols next outer.kind name last := by
  rw [reaches_append_iff]
  constructor
  · rintro ⟨front, back, next, hnames, hfront, hback⟩
    cases hback with
    | step hpasses hrefl =>
        cases hrefl
        obtain ⟨rfl, hname⟩ := List.append_inj' hnames rfl
        cases hname
        exact ⟨next, hfront, hpasses⟩
  · rintro ⟨next, hfront, hpasses⟩
    exact ⟨names, [name], next, rfl, hfront, .step hpasses .refl⟩

/-- What every step of a way keeps true of a draft is true at its end. -/
theorem Reaches.preserves (h : Reaches symbols draft path names last)
    (holds : Draft → Prop) (hdraft : holds draft)
    (hstep : ∀ outer ∈ path, ∀ name ∈ names, ∀ draft next, holds draft →
      Passes symbols draft outer.kind name next → holds next) : holds last := by
  induction h with
  | refl => exact hdraft
  | step hpasses _ ih =>
      refine ih (hstep _ List.mem_cons_self _ List.mem_cons_self _ _ hdraft hpasses) ?_
      exact fun outer houter name hname => hstep outer (List.mem_cons_of_mem _ houter)
        name (List.mem_cons_of_mem _ hname)

theorem Reaches.withTrail (h : Reaches symbols draft path names last)
    (trail : List Text) :
    Reaches symbols (draft.withTrail trail) path names (last.withTrail trail) := by
  induction h with
  | refl => exact .refl
  | step hpasses _ ih => exact .step (hpasses.withTrail trail) ih

/-- Once a selector starts at the document's root, it does so to the end. -/
theorem Reaches.rooted (h : Reaches symbols draft path names last)
    (hrooted : draft.scope.rooted = true) : last.scope.rooted = true := by
  refine h.preserves (fun draft => draft.scope.rooted = true) hrooted ?_
  intro outer _ name _ draft next hrooted hpasses
  rw [hpasses.scope_eq]
  cases outer.kind <;> first | exact hrooted | rfl

/-- All that finishing a draft needs is a root id that can be written, and only
if the selector starts at the root. -/
theorem exists_finish_iff {rootId body : Text} :
    (∃ named, draft.finish rootId body = .ok named) ↔
      (draft.scope.rooted = true → ∃ text, escaped rootId = .ok text) := by
  unfold Draft.finish scopeCompound
  cases draft.scope.rooted with
  | false => exact ⟨fun _ => nofun, fun _ => ⟨_, rfl⟩⟩
  | true => cases escaped rootId <;> simp [Except.map]

end Draft

namespace Place

/-- The selector that one choice of names gives at a place. -/
def Yields (symbols : Symbols) (place : Place) (names : List Text)
    (named : NamedSelector) : Prop :=
  ∃ draft, Draft.Reaches symbols .empty place.path names draft ∧
    draft.finish symbols.rootId (place.node.body.getD []) = .ok named

theorem Yields.unique {symbols : Symbols} {place : Place} {names : List Text}
    {named named' : NamedSelector}
    (h : place.Yields symbols names named) (h' : place.Yields symbols names named') :
    named = named' := by
  obtain ⟨draft, hreaches, hfinish⟩ := h
  obtain ⟨draft', hreaches', hfinish'⟩ := h'
  obtain rfl := hreaches.unique hreaches'
  exact Except.ok.inj (hfinish.symm.trans hfinish')

/-- A visit that holds a selector for each choice of names for its place. -/
def IsVisited (symbols : Symbols) (place : Place) (visit : Visit) : Prop :=
  visit.declaration = place.node ∧
    List.Forall₂ (place.Yields symbols) place.namings visit.selectors

/-- There are names for a place, and at a leaf every choice gives a selector. -/
def IsNameable (symbols : Symbols) (place : Place) : Prop :=
  place.node.choices ≠ [] ∧
    (place.node.isLeaf = true → ∀ names ∈ place.namings,
      ∃ named, place.Yields symbols names named)

end Place

/-! ## Results of a walk -/

theorem Trace.result_andThen_eq_ok_iff {first second : Trace}
    {visits : List Visit} :
    (first.andThen second).result = .ok visits ↔
      ∃ before after, first.result = .ok before ∧ second.result = .ok after ∧
        visits = before ++ after := by
  rw [Trace.result_andThen]
  cases first.result <;> cases second.result <;> simp [Except.map, eq_comm]

namespace Declaration

open Draft (Reaches Passes)

variable {symbols : Symbols} {declaration : Declaration} {draft : Draft}
  {drafts expanded extended : List Draft} {above : List Declaration}
  {visits : List Visit}

def isVisited (declaration : Declaration) : Bool :=
  declaration.body.isSome || declaration.isLeaf

theorem walk_result_eq_ok_iff :
    (walk symbols drafts declaration).result = .ok visits ↔
      ∃ expanded here below, declaration.expand symbols drafts = .ok expanded ∧
        (declaration.visit symbols expanded).result = .ok here ∧
        (walkAll symbols expanded declaration.children).result = .ok below ∧
        visits = here ++ below := by
  obtain ⟨kind, names, body, children⟩ := declaration
  rw [walk]
  cases expand symbols ⟨kind, names, body, children⟩ drafts with
  | error cause => simp
  | ok expanded => simp [Trace.result_andThen_eq_ok_iff]

theorem walkAll_cons_result_eq_ok_iff {rest : List Declaration} :
    (walkAll symbols drafts (declaration :: rest)).result = .ok visits ↔
      ∃ here after, (walk symbols drafts declaration).result = .ok here ∧
        (walkAll symbols drafts rest).result = .ok after ∧
        visits = here ++ after := by
  rw [walkAll, Trace.result_andThen_eq_ok_iff]

theorem extend_eq_ok_iff :
    declaration.extend symbols draft = .ok extended ↔
      declaration.choices ≠ [] ∧
        List.Forall₂ (fun name next => Passes symbols
          (draft.enter declaration.display) declaration.kind name next)
          declaration.choices extended := by
  simp only [extend, ← Draft.apply_eq_ok_iff, ← mapM_eq_ok_iff]
  by_cases hchoices : declaration.choices = [] <;> simp [hchoices]

theorem expand_eq_ok_iff :
    declaration.expand symbols drafts = .ok expanded ↔
      ∃ lists, List.Forall₂
        (fun draft extended => declaration.extend symbols draft = .ok extended)
        drafts lists ∧ lists.flatten = expanded := by
  simp only [expand, ← mapM_eq_ok_iff]
  cases drafts.mapM (declaration.extend symbols) <;> simp [Except.map]

/-- At a node with a body, and at a leaf, every draft is finished. -/
theorem visit_result_eq_ok_iff (h : declaration.isVisited = true) :
    (declaration.visit symbols drafts).result = .ok visits ↔
      ∃ selectors, List.Forall₂ (fun draft named =>
        draft.finish symbols.rootId (declaration.body.getD []) = .ok named)
        drafts selectors ∧ visits = [⟨declaration, selectors⟩] := by
  simp only [visit, ← mapM_eq_ok_iff]
  rw [if_pos (by simpa [isVisited] using h)]
  cases drafts.mapM fun draft : Draft =>
    draft.finish symbols.rootId (declaration.body.getD []) <;>
      simp [Trace.result, Trace.failed, eq_comm]

theorem visit_eq_empty (h : declaration.isVisited = false) :
    declaration.visit symbols drafts = .empty := by
  rw [visit, if_neg (by simpa [isVisited] using h)]

/-! ## Drafts that follow choices of names -/

/-- Drafts that follow the choices of names for some nested declarations, one
for each choice and in their order. -/
def Follow (symbols : Symbols) (path : List Declaration)
    (drafts : List Draft) : Prop :=
  List.Forall₂ (fun names draft =>
    Reaches symbols .empty path names (draft.withTrail [])) (namings path) drafts

theorem follow_empty : Follow symbols [] [.empty] :=
  .cons .refl .nil

/-- One more declaration multiplies the drafts by its choices. -/
theorem Follow.expand (hfollow : Follow symbols above drafts)
    (h : declaration.expand symbols drafts = .ok expanded) :
    Follow symbols (above ++ [declaration]) expanded := by
  obtain ⟨lists, hlists, rfl⟩ := expand_eq_ok_iff.mp h
  rw [Follow, namings_concat, List.flatMap_def]
  refine List.rel_flatten (List.forall₂_map_left_iff.mpr ?_)
  refine (forall₂_comp hfollow hlists).imp ?_
  rintro names extended ⟨draft, hreaches, hextend⟩
  refine List.forall₂_map_left_iff.mpr ?_
  refine (extend_eq_ok_iff.mp hextend).2.imp fun name next hpasses => ?_
  exact Draft.reaches_concat_iff.mpr ⟨_, hreaches, hpasses.withTrail []⟩

/-- The drafts can be multiplied if some draft follows every longer choice. -/
theorem Follow.exists_expand (hfollow : Follow symbols above drafts)
    (hchoices : declaration.choices ≠ [])
    (h : ∀ names ∈ namings (above ++ [declaration]), ∃ last,
      Reaches symbols .empty (above ++ [declaration]) names last) :
    ∃ expanded, declaration.expand symbols drafts = .ok expanded := by
  have hextend : ∀ draft ∈ drafts, ∃ extended,
      declaration.extend symbols draft = .ok extended := by
    intro draft hdraft
    obtain ⟨names, hnames, hreaches⟩ := exists_of_mem_right hfollow hdraft
    simp only [extend_eq_ok_iff, ← Draft.apply_eq_ok_iff, ← mapM_eq_ok_iff]
    refine (exists_and_left.mpr ⟨hchoices, exists_mapM_eq_ok fun name hname => ?_⟩)
    obtain ⟨last, hlast⟩ := h (names ++ [name]) (mem_namings_append.mpr
      ⟨names, hnames, [name], by simpa [namings] using hname, rfl⟩)
    obtain ⟨next, hnext, hpasses⟩ := Draft.reaches_concat_iff.mp hlast
    obtain rfl := hnext.unique hreaches
    exact ⟨_, Draft.apply_eq_ok_iff.mpr
      (hpasses.withTrail (draft.enter declaration.display).trail)⟩
  obtain ⟨lists, hlists⟩ := exists_mapM_eq_ok hextend
  exact ⟨lists.flatten, expand_eq_ok_iff.mpr ⟨lists, mapM_eq_ok_iff.mp hlists, rfl⟩⟩

/-- Finished drafts are what the choices yield. -/
theorem Follow.yields (hfollow : Follow symbols (above ++ [declaration]) drafts)
    {selectors : List NamedSelector}
    (h : List.Forall₂ (fun draft named =>
      draft.finish symbols.rootId (declaration.body.getD []) = .ok named)
      drafts selectors) :
    List.Forall₂ (Place.Yields symbols ⟨above, declaration⟩)
      (Place.namings ⟨above, declaration⟩) selectors :=
  (forall₂_comp hfollow h).imp fun _ _ ⟨draft, hreaches, hfinish⟩ =>
    ⟨draft.withTrail [], hreaches, hfinish⟩

/-! ## What a walk visits -/

/-- The visit of a node, which may be none. -/
theorem forall₂_visit (hfollow : Follow symbols (above ++ [declaration]) drafts)
    (h : (declaration.visit symbols drafts).result = .ok visits) :
    List.Forall₂ (Place.IsVisited symbols)
      ([⟨above, declaration⟩].filter fun place => place.node.isVisited) visits := by
  cases hvisited : declaration.isVisited with
  | true =>
      obtain ⟨selectors, hselectors, rfl⟩ := (visit_result_eq_ok_iff hvisited).mp h
      rw [List.filter_cons_of_pos (by simpa using hvisited), List.filter_nil]
      exact .cons ⟨rfl, hfollow.yields hselectors⟩ .nil
  | false =>
      rw [visit_eq_empty hvisited] at h
      cases h
      rw [List.filter_cons_of_neg (by simp [hvisited]), List.filter_nil]
      exact .nil

theorem Follow.choices_ne_nil (hfollow : Follow symbols above drafts)
    (habove : ∀ outer ∈ above, outer.choices ≠ [])
    (h : declaration.expand symbols drafts = .ok expanded) :
    declaration.choices ≠ [] := by
  obtain ⟨names, hnames⟩ := exists_mem_namings habove
  obtain ⟨draft, hdraft, _⟩ := exists_of_mem_left hfollow hnames
  obtain ⟨lists, hlists, _⟩ := expand_eq_ok_iff.mp h
  obtain ⟨extended, _, hextend⟩ := exists_of_mem_left hlists hdraft
  exact (extend_eq_ok_iff.mp hextend).1

mutual

/-- A walk that comes to its end has found names for every place, and has
visited each place at which selectors are finished. -/
theorem forall₂_walk (declaration : Declaration) (above : List Declaration)
    (drafts : List Draft) (visits : List Visit)
    (hfollow : Follow symbols above drafts)
    (habove : ∀ outer ∈ above, outer.choices ≠ [])
    (h : (walk symbols drafts declaration).result = .ok visits) :
    (∀ place ∈ places above declaration, place.node.choices ≠ []) ∧
      List.Forall₂ (Place.IsVisited symbols)
        ((places above declaration).filter fun place => place.node.isVisited)
        visits := by
  match declaration with
  | ⟨kind, names, body, children⟩ =>
      obtain ⟨expanded, here, below, hexpand, hhere, hbelow, rfl⟩ :=
        walk_result_eq_ok_iff.mp h
      have hchoices := hfollow.choices_ne_nil habove hexpand
      have hexpanded := hfollow.expand hexpand
      obtain ⟨hplaces, hvisits⟩ := forall₂_walkAll children _ expanded below
        hexpanded (List.forall_mem_append.mpr
          ⟨habove, List.forall_mem_singleton.mpr hchoices⟩) hbelow
      rw [places_eq, ← List.singleton_append, List.filter_append]
      exact ⟨List.forall_mem_cons.mpr ⟨hchoices, hplaces⟩,
        List.rel_append (forall₂_visit hexpanded hhere) hvisits⟩

theorem forall₂_walkAll (declarations : List Declaration)
    (above : List Declaration) (drafts : List Draft) (visits : List Visit)
    (hfollow : Follow symbols above drafts)
    (habove : ∀ outer ∈ above, outer.choices ≠ [])
    (h : (walkAll symbols drafts declarations).result = .ok visits) :
    (∀ place ∈ allPlaces above declarations, place.node.choices ≠ []) ∧
      List.Forall₂ (Place.IsVisited symbols)
        ((allPlaces above declarations).filter fun place => place.node.isVisited)
        visits := by
  match declarations with
  | [] =>
      cases h
      exact ⟨by simp [allPlaces], .nil⟩
  | declaration :: rest =>
      obtain ⟨here, after, hhere, hafter, rfl⟩ :=
        walkAll_cons_result_eq_ok_iff.mp h
      obtain ⟨hplaces, hvisits⟩ :=
        forall₂_walk declaration above drafts here hfollow habove hhere
      obtain ⟨hplaces', hvisits'⟩ :=
        forall₂_walkAll rest above drafts after hfollow habove hafter
      rw [allPlaces, List.filter_append]
      exact ⟨List.forall_mem_append.mpr ⟨hplaces, hplaces'⟩,
        List.rel_append hvisits hvisits'⟩

end

/-- A node can be visited if the drafts can be finished. -/
theorem Follow.exists_visit (hfollow : Follow symbols (above ++ [declaration]) drafts)
    (h : ∀ names ∈ namings (above ++ [declaration]), ∃ last,
      Reaches symbols .empty (above ++ [declaration]) names last ∧
        ∀ body, ∃ named, last.finish symbols.rootId body = .ok named) :
    ∃ visits, (declaration.visit symbols drafts).result = .ok visits := by
  cases hvisited : declaration.isVisited with
  | true =>
      simp only [visit_result_eq_ok_iff hvisited, ← mapM_eq_ok_iff]
      obtain ⟨selectors, hselectors⟩ : ∃ selectors, drafts.mapM (fun draft =>
          draft.finish symbols.rootId (declaration.body.getD [])) = .ok selectors := by
        refine exists_mapM_eq_ok fun draft hdraft => ?_
        obtain ⟨names, hnames, hreaches⟩ := exists_of_mem_right hfollow hdraft
        obtain ⟨last, hlast, hfinish⟩ := h names hnames
        obtain rfl := hlast.unique hreaches
        exact hfinish _
      exact ⟨_, selectors, hselectors, rfl⟩
  | false => exact ⟨[], by rw [visit_eq_empty hvisited]; rfl⟩

/-- Below every node there is a leaf, with names on the way to it. -/
theorem exists_leaf (declaration : Declaration) (above : List Declaration)
    (h : ∀ place ∈ places above declaration, place.node.choices ≠ []) :
    ∃ leaf ∈ places above declaration, leaf.node.isLeaf = true ∧
      ∃ below, leaf.path = above ++ [declaration] ++ below ∧
        ∀ inner ∈ below, inner.choices ≠ [] := by
  match declaration with
  | ⟨kind, names, body, []⟩ =>
      exact ⟨_, mem_places_self, rfl, [], by rw [List.append_nil]; rfl, by simp⟩
  | ⟨kind, names, body, child :: rest⟩ =>
      rw [places_eq] at h ⊢
      have hchild : ∀ place ∈ places (above ++ [⟨kind, names, body, child :: rest⟩])
          child, place.node.choices ≠ [] := fun place hplace =>
        h place (List.mem_cons_of_mem _ (List.mem_append_left _ hplace))
      obtain ⟨leaf, hmem, hleaf, below, hpath, hbelow⟩ :=
        exists_leaf child _ hchild
      exact ⟨leaf, List.mem_cons_of_mem _ (List.mem_append_left _ hmem), hleaf,
        child :: below, by rw [hpath, List.append_assoc _ [child]]; rfl,
        List.forall_mem_cons.mpr ⟨hchild _ mem_places_self, hbelow⟩⟩

/-- Where every place can be named, each choice of names for the way down to a node is
followed by a draft, which can be finished. -/
theorem exists_reaches_of_isNameable
    (h : ∀ place ∈ places above declaration, place.IsNameable symbols)
    {names : List Text} (hnames : names ∈ namings (above ++ [declaration])) :
    ∃ last, Reaches symbols .empty (above ++ [declaration]) names last ∧
      ∀ body, ∃ named, last.finish symbols.rootId body = .ok named := by
  obtain ⟨leaf, hmem, hleaf, below, hpath, hbelow⟩ :=
    exists_leaf declaration above fun place hplace => (h place hplace).1
  obtain ⟨rest, hrest⟩ := exists_mem_namings hbelow
  obtain ⟨named, last, hreaches, hfinish⟩ := (h leaf hmem).2 hleaf (names ++ rest)
    (by rw [Place.namings, hpath]; exact mem_namings_append.mpr
          ⟨names, hnames, rest, hrest, rfl⟩)
  rw [hpath] at hreaches
  obtain ⟨front, back, next, happend, hfront, hback⟩ :=
    Draft.reaches_append_iff.mp hreaches
  have hlength : names.length = front.length := by
    rw [length_of_mem_namings hnames, hfront.length_eq]
  obtain ⟨rfl, rfl⟩ := List.append_inj happend hlength
  exact ⟨next, hfront, fun body => Draft.exists_finish_iff.mpr fun hrooted =>
    Draft.exists_finish_iff.mp ⟨named, hfinish⟩ (hback.rooted hrooted)⟩

mutual

/-- A walk comes to its end if every place can be named. -/
theorem exists_walk (declaration : Declaration) (above : List Declaration)
    (drafts : List Draft) (hfollow : Follow symbols above drafts)
    (h : ∀ place ∈ places above declaration, place.IsNameable symbols) :
    ∃ visits, (walk symbols drafts declaration).result = .ok visits := by
  match declaration with
  | ⟨kind, names, body, children⟩ =>
      have hreach {names' : List Text} := @exists_reaches_of_isNameable symbols
        ⟨kind, names, body, children⟩ above h names'
      obtain ⟨expanded, hexpand⟩ := hfollow.exists_expand
        (h _ mem_places_self).1 fun names hnames =>
          (hreach hnames).imp fun _ hlast => hlast.1
      have hexpanded := hfollow.expand hexpand
      rw [places_eq, List.forall_mem_cons] at h
      obtain ⟨below, hbelow⟩ := exists_walkAll children _ expanded hexpanded h.2
      obtain ⟨here, hhere⟩ := hexpanded.exists_visit fun _ => hreach
      exact ⟨here ++ below, walk_result_eq_ok_iff.mpr
        ⟨expanded, here, below, hexpand, hhere, hbelow, rfl⟩⟩

theorem exists_walkAll (declarations : List Declaration)
    (above : List Declaration) (drafts : List Draft)
    (hfollow : Follow symbols above drafts)
    (h : ∀ place ∈ allPlaces above declarations, place.IsNameable symbols) :
    ∃ visits, (walkAll symbols drafts declarations).result = .ok visits := by
  match declarations with
  | [] => exact ⟨[], rfl⟩
  | declaration :: rest =>
      rw [allPlaces, List.forall_mem_append] at h
      obtain ⟨here, hhere⟩ := exists_walk declaration above drafts hfollow h.1
      obtain ⟨after, hafter⟩ := exists_walkAll rest above drafts hfollow h.2
      exact ⟨here ++ after, walkAll_cons_result_eq_ok_iff.mpr
        ⟨here, after, hhere, hafter, rfl⟩⟩

end

/-! ## Chains -/

theorem choices_single {name : Text} (h : name ∈ declaration.choices)
    (body : Option Text) (children : List Declaration) :
    choices ⟨declaration.kind, [name], body, children⟩ = [name] := by
  obtain ⟨kind, names, _, _⟩ := declaration
  cases kind <;> simp_all [choices]

/-- A declaration with one name keeps the number of the drafts. -/
theorem expand_single_eq_ok_iff {name : Text} (h : declaration.choices = [name]) :
    declaration.expand symbols [draft] = .ok expanded ↔
      ∃ next, Passes symbols (draft.enter declaration.display)
        declaration.kind name next ∧ expanded = [next] := by
  rw [expand_eq_ok_iff]
  constructor
  · rintro ⟨lists, hlists, rfl⟩
    obtain ⟨extended, rest, hextend, hrest, rfl⟩ :=
      List.forall₂_cons_left_iff.mp hlists
    have hall := (extend_eq_ok_iff.mp hextend).2
    rw [h] at hall
    obtain ⟨next, tail, hpasses, htail, rfl⟩ := List.forall₂_cons_left_iff.mp hall
    cases htail
    cases hrest
    exact ⟨next, hpasses, rfl⟩
  · rintro ⟨next, hpasses, rfl⟩
    refine ⟨[[next]], .cons (extend_eq_ok_iff.mpr ⟨?_, ?_⟩) .nil, rfl⟩
    · rw [h]
      exact List.cons_ne_nil _ _
    · rw [h]
      exact .cons hpasses .nil

/-- The walk to a leaf with one name. -/
theorem walk_leaf_result_eq_ok_iff {kind : Kind} {name : Text}
    {body : Option Text} (h : choices ⟨kind, [name], body, []⟩ = [name]) :
    (walk symbols [draft] ⟨kind, [name], body, []⟩).result = .ok visits ↔
      ∃ next named, Passes symbols (draft.withTrail []) kind name next ∧
        next.finish symbols.rootId (body.getD []) = .ok named ∧
        visits = [⟨⟨kind, [name], body, []⟩, [named]⟩] := by
  have hvisited : isVisited ⟨kind, [name], body, []⟩ = true := by
    simp [isVisited, isLeaf]
  simp only [walk_result_eq_ok_iff, expand_single_eq_ok_iff h,
    visit_result_eq_ok_iff hvisited]
  constructor
  · rintro ⟨_, _, _, ⟨next, hpasses, rfl⟩, ⟨selectors, hselectors, rfl⟩, hbelow, rfl⟩
    obtain ⟨named, rest, hfinish, hrest, rfl⟩ :=
      List.forall₂_cons_left_iff.mp hselectors
    cases hrest
    cases hbelow
    exact ⟨next.withTrail [], named, hpasses.withTrail [], hfinish, rfl⟩
  · rintro ⟨next, named, hpasses, hfinish, rfl⟩
    exact ⟨_, _, [], ⟨_, hpasses.withTrail _, rfl⟩, ⟨[named], .cons hfinish .nil, rfl⟩,
      rfl, rfl⟩

/-- The walk through a declaration with one name, one tree and no body. -/
theorem walk_link_result_eq_ok_iff {kind : Kind} {name : Text}
    {inner : Declaration} (h : choices ⟨kind, [name], none, [inner]⟩ = [name]) :
    (walk symbols [draft] ⟨kind, [name], none, [inner]⟩).result = .ok visits ↔
      ∃ next, Passes symbols
          (draft.enter (display ⟨kind, [name], none, [inner]⟩)) kind name next ∧
        (walk symbols [next] inner).result = .ok visits := by
  have hvisited : isVisited ⟨kind, [name], none, [inner]⟩ = false := by
    simp [isVisited, isLeaf]
  rw [walk_result_eq_ok_iff]
  simp only [expand_single_eq_ok_iff h, visit_eq_empty hvisited,
    walkAll_cons_result_eq_ok_iff]
  constructor
  · rintro ⟨_, here, _, ⟨next, hpasses, rfl⟩, hhere,
      ⟨below, after, hinner, hafter, rfl⟩, rfl⟩
    obtain rfl : [] = here := Except.ok.inj hhere
    obtain rfl : [] = after := Except.ok.inj hafter
    exact ⟨next, hpasses, by rwa [List.nil_append, List.append_nil]⟩
  · rintro ⟨next, hpasses, hinner⟩
    exact ⟨_, [], visits, ⟨next, hpasses, rfl⟩, rfl,
      ⟨visits, [], hinner, rfl, (List.append_nil _).symm⟩, rfl⟩

/-- The walk along a chain goes where the names of the chain lead. -/
theorem walk_chain_result_eq_ok_iff {node : Declaration} {names : List Text}
    (hnames : names ∈ namings (above ++ [node])) :
    (walk symbols [draft] (node.chain above names)).result = .ok visits ↔
      ∃ last named,
        Reaches symbols (draft.withTrail []) (above ++ [node]) names last ∧
        last.finish symbols.rootId (node.body.getD []) = .ok named ∧
        visits = [⟨⟨node.kind, names.drop above.length, node.body, []⟩, [named]⟩] := by
  induction above generalizing names draft with
  | nil =>
      obtain ⟨name, hname, rest, hrest, rfl⟩ := mem_namings_cons.mp hnames
      obtain rfl : rest = [] := by simpa [namings] using hrest
      refine (walk_leaf_result_eq_ok_iff (choices_single hname _ _)).trans ?_
      constructor
      · rintro ⟨next, named, hpasses, hfinish, rfl⟩
        exact ⟨next, named, .step hpasses .refl, hfinish, rfl⟩
      · rintro ⟨last, named, hreaches, hfinish, rfl⟩
        cases hreaches with
        | step hpasses hrefl =>
            cases hrefl
            exact ⟨last, named, hpasses, hfinish, rfl⟩
  | cons outer above ih =>
      obtain ⟨name, hname, rest, hrest, rfl⟩ := mem_namings_cons.mp hnames
      refine (walk_link_result_eq_ok_iff (choices_single hname _ _)).trans ?_
      simp only [ih hrest]
      constructor
      · rintro ⟨next, hpasses, last, named, hreaches, hfinish, rfl⟩
        exact ⟨last, named, .step (hpasses.withTrail []) hreaches, hfinish, rfl⟩
      · rintro ⟨last, named, hreaches, hfinish, rfl⟩
        cases hreaches with
        | step hpasses hreaches =>
            exact ⟨_, hpasses.withTrail _, last.withTrail [], named,
              hreaches.withTrail [], hfinish, rfl⟩

/-- The rules of a chain are those of its last node: one selector, the one that
the names yield, or nothing if there is no body. -/
theorem rules_chain_eq_ok_iff {table : SymbolTable} {place : Place}
    {names : List Text} (hnames : names ∈ place.namings) {rules : List Rule} :
    (place.chain names).rules table = .ok rules ↔
      ∃ named, place.Yields table.current names named ∧
        rules = (place.node.body.map fun body => ⟨[named], body⟩).toList := by
  have hchain {visits : List Visit} := @walk_chain_result_eq_ok_iff table.current
    .empty place.above visits place.node names hnames
  constructor
  · intro h
    obtain ⟨visits, hvisits, rfl⟩ := exists_of_map_eq_ok h
    obtain ⟨last, named, hreaches, hfinish, rfl⟩ := hchain.mp hvisits
    refine ⟨named, ⟨last, hreaches, hfinish⟩, ?_⟩
    cases place.node.body <;> simp [Visit.rules, Visit.rule?]
  · rintro ⟨named, ⟨last, hreaches, hfinish⟩, rfl⟩
    rw [Declaration.rules, Place.chain, hchain.mpr ⟨last, named, hreaches, hfinish, rfl⟩]
    cases place.node.body <;> simp [Visit.rules, Visit.rule?, Except.map]

/-! ## Main result -/

theorem choices_ne_nil_iff :
    declaration.choices ≠ [] ↔
      (declaration.kind ≠ .sibling → declaration.names ≠ []) := by
  obtain ⟨kind, names, _, _⟩ := declaration
  cases kind <;> simp [choices]

/-- The visits at nodes with a body give one rule each. -/
theorem forall₂_rules {places : List Place}
    (h : List.Forall₂ (Place.IsVisited symbols)
      (places.filter fun place => place.node.isVisited) visits) :
    List.Forall₂ (fun place rule => place.node.body = some rule.body ∧
        List.Forall₂ (place.Yields symbols) place.namings rule.selectors)
      (places.filter fun place => place.node.body.isSome) (Visit.rules visits) := by
  have hfilter : (places.filter fun place => place.node.body.isSome) =
      (places.filter fun place => place.node.isVisited).filter
        fun place => place.node.body.isSome := by
    rw [List.filter_filter]
    refine List.filter_congr fun place _ => ?_
    cases hbody : place.node.body <;> simp [isVisited, hbody]
  rw [hfilter, ← List.filterMap_eq_filter]
  refine List.rel_filterMap ?_ h
  rintro place ⟨node, selectors⟩ ⟨rfl, hselectors⟩
  cases hbody : place.node.body with
  | none =>
      simp only [Visit.rule?, Option.guard, hbody, Option.isSome_none]
      exact .none
  | some body =>
      simp only [Visit.rule?, Option.guard, hbody, Option.isSome_some]
      exact .some ⟨hbody, hselectors⟩

/-- The rules of a tree belong to its nodes with a body, and each holds what its
place yields, choice by choice. -/
theorem forall₂_yields_of_rules {table : SymbolTable} {rules : List Rule}
    (h : declaration.rules table = .ok rules) :
    List.Forall₂ (fun place rule => place.node.body = some rule.body ∧
        List.Forall₂ (place.Yields table.current) place.namings rule.selectors)
      ((places [] declaration).filter fun place => place.node.body.isSome) rules := by
  obtain ⟨visits, hvisits, rfl⟩ := exists_of_map_eq_ok h
  exact forall₂_rules
    (forall₂_walk declaration [] [.empty] visits follow_empty (by simp) hvisits).2

theorem allLeaves_eq (visits : List Visit) :
    Visit.allLeaves visits =
      ((visits.filter fun visit => visit.declaration.isLeaf).map
        Visit.selectors).flatten := by
  unfold Visit.allLeaves
  induction visits with
  | nil => rfl
  | cons visit visits ih =>
      cases hleaf : visit.declaration.isLeaf <;> simp [Visit.leaves, hleaf, ih]

/-- The leaf selectors of a tree are what the places of its leaves yield, leaf by
leaf and choice by choice. -/
theorem exists_forall₂_yields_of_leaves {table : SymbolTable}
    {leaves : List NamedSelector} (h : declaration.leaves table = .ok leaves) :
    ∃ groups : List (List NamedSelector), leaves = groups.flatten ∧
      List.Forall₂ (fun place group =>
          List.Forall₂ (place.Yields table.current) place.namings group)
        ((places [] declaration).filter fun place => place.node.isLeaf) groups := by
  obtain ⟨visits, hvisits, rfl⟩ := exists_of_map_eq_ok h
  have hall := (forall₂_walk declaration [] [.empty] visits follow_empty
    (by simp) hvisits).2
  have hfilter : ((places [] declaration).filter fun place => place.node.isLeaf) =
      ((places [] declaration).filter fun place => place.node.isVisited).filter
        fun place => place.node.isLeaf := by
    rw [List.filter_filter]
    refine List.filter_congr fun place _ => ?_
    cases hleaf : place.node.isLeaf <;> simp [isVisited, hleaf]
  refine ⟨_, allLeaves_eq visits, ?_⟩
  rw [hfilter, List.forall₂_map_right_iff]
  refine (List.rel_filter ?_ hall).imp fun _ _ hvisited => hvisited.2
  rintro place ⟨node, selectors⟩ ⟨rfl, _⟩
  exact Iff.rfl

/-- A tree can be walked exactly if all its places work. -/
theorem exists_walk_iff :
    (∃ visits, (walk symbols [.empty] declaration).result = .ok visits) ↔
      ∀ place ∈ places [] declaration, place.IsNameable symbols := by
  constructor
  · rintro ⟨visits, hvisits⟩ place hplace
    obtain ⟨hchoices, hall⟩ := forall₂_walk declaration [] [.empty] visits
      follow_empty (by simp) hvisits
    refine ⟨hchoices place hplace, fun hleaf names hnames => ?_⟩
    obtain ⟨visit, _, _, hyields⟩ := exists_of_mem_left hall
      (List.mem_filter.mpr ⟨hplace, by simp [isVisited, hleaf]⟩)
    exact (exists_of_mem_left hyields hnames).imp fun _ hnamed => hnamed.2
  · exact exists_walk declaration [] [.empty] follow_empty

theorem exists_leaves_iff {table : SymbolTable} :
    (∃ leaves, declaration.leaves table = .ok leaves) ↔
      ∀ place ∈ places [] declaration, place.IsNameable table.current := by
  rw [← exists_walk_iff, Declaration.leaves, exists_map_eq_ok_iff]

theorem exists_rules_iff {table : SymbolTable} :
    (∃ rules, declaration.rules table = .ok rules) ↔
      ∀ place ∈ places [] declaration, place.IsNameable table.current := by
  rw [← exists_walk_iff, Declaration.rules, exists_map_eq_ok_iff]

/-- Every tree that has leaf selectors has some: there is a leaf below its root, and a
choice of names for it. -/
theorem leaves_ne_nil {table : SymbolTable} {leaves : List NamedSelector}
    (h : declaration.leaves table = .ok leaves) : leaves ≠ [] := by
  obtain ⟨visits, hvisits, rfl⟩ := exists_of_map_eq_ok h
  obtain ⟨hchoices, hall⟩ := forall₂_walk declaration [] [.empty] visits follow_empty
    (by simp) hvisits
  obtain ⟨leaf, hmem, hleaf, _⟩ := exists_leaf declaration [] hchoices
  obtain ⟨visit, hvisit, hnode, hyields⟩ := exists_of_mem_left hall
    (List.mem_filter.mpr ⟨hmem, by simp [isVisited, hleaf]⟩)
  obtain ⟨names, hnames⟩ := exists_mem_namings (forall_mem_path hchoices hmem)
  obtain ⟨named, hnamed, _⟩ := exists_of_mem_left hyields hnames
  have hleaves : named ∈ visit.leaves := by
    rw [Visit.leaves, hnode, if_pos hleaf]
    exact hnamed
  exact List.ne_nil_of_mem (List.mem_flatMap.mpr ⟨visit, hvisit, hleaves⟩)

/-- A tree has rules exactly if every node has a choice of names and every chain
to a leaf has rules, and then its rules are, node by node in pre-order and choice
by choice, the rules of the chains. -/
theorem rules_enumerate_chains (table : SymbolTable) (declaration : Declaration) :
    ((∃ rules, declaration.rules table = .ok rules) ↔
        ∀ place ∈ places [] declaration,
          (place.node.kind ≠ .sibling → place.node.names ≠ []) ∧
          (place.node.isLeaf = true → ∀ names ∈ place.namings,
            ∃ rules, (place.chain names).rules table = .ok rules)) ∧
      ∀ rules, declaration.rules table = .ok rules →
        List.Forall₂ (fun place rule => place.node.body = some rule.body ∧
            List.Forall₂ (fun names named =>
                (place.chain names).rules table = .ok [⟨[named], rule.body⟩])
              place.namings rule.selectors)
          ((places [] declaration).filter fun place => place.node.body.isSome)
          rules := by
  constructor
  · rw [exists_rules_iff]
    refine forall₂_congr fun place _ => and_congr choices_ne_nil_iff ?_
    refine imp_congr_right fun _ => forall₂_congr fun names hnames => ?_
    simp only [rules_chain_eq_ok_iff hnames]
    exact ⟨fun ⟨named, hnamed⟩ => ⟨_, named, hnamed, rfl⟩,
      fun ⟨_, named, hnamed, _⟩ => ⟨named, hnamed⟩⟩
  · intro rules hrules
    obtain ⟨visits, hvisits, rfl⟩ := exists_of_map_eq_ok hrules
    obtain ⟨_, hall⟩ := forall₂_walk declaration [] [.empty] visits follow_empty
      (by simp) hvisits
    refine (forall₂_rules hall).imp fun place rule ⟨hbody, hyields⟩ => ⟨hbody, ?_⟩
    refine ((List.forall₂_and_left _ _).mpr ⟨fun _ hnames => hnames, hyields⟩).imp ?_
    intro names named ⟨hnames, hnamed⟩
    exact (rules_chain_eq_ok_iff hnames).mpr ⟨named, hnamed, by rw [hbody]; rfl⟩

/-- Two components with two options each: four chains, the options changing
first, whatever stands beside them. -/
theorem rules_enumerate_chains_options :
    ∃ outer inner rule,
      outer = ⟨.component, [['a'], ['b']], none,
        [inner, ⟨.part, [['c']], none, []⟩]⟩ ∧
      inner = ⟨.option, [['o'], ['p']], some ['x'], []⟩ ∧
      Declaration.rules .initial outer = .ok [rule] ∧
      rule.selectorText = ("html .a.\\--o, html .a.\\--p, " ++
        "html .b.\\--o, html .b.\\--p").toList ∧
      List.Forall₂ (fun names named =>
          (Place.chain ⟨[outer], inner⟩ names).rules .initial =
            .ok [⟨[named], ['x']⟩])
        [[['a'], ['o']], [['a'], ['p']], [['b'], ['o']], [['b'], ['p']]]
        rule.selectors := by
  have hrules : Declaration.rules .initial ⟨.component, [['a'], ['b']], none,
      [⟨.option, [['o'], ['p']], some ['x'], []⟩, ⟨.part, [['c']], none, []⟩]⟩ =
      .ok [⟨[['a'], ['b']].flatMap fun block => [['o'], ['p']].map fun option =>
        ⟨[⟨[.element boostElement], .descendant⟩,
          ⟨[.className block, .className ("\\--".toList ++ option)], .none⟩],
        ⟨0, 2, 1⟩, ['x']⟩, ['x']⟩] := by
    decide +kernel
  have hall := (rules_enumerate_chains _ _).2 _ hrules
  obtain ⟨_, hchains⟩ := (List.forall₂_cons.mp hall).1
  exact ⟨_, _, _, rfl, rfl, hrules, by decide +kernel, hchains⟩

end Declaration

end Cascade
