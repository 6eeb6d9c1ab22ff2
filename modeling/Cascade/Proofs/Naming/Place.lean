import Cascade.Naming.Declaration
import Mathlib.Logic.Relation

/-!
# Places in a declaration tree

A place is a node of a tree together with the nodes above it.  The names on the
way down to a place are chosen node by node, and the choices stand in the order
in which the outermost name changes last.  The chain of a choice is the tree that
holds nothing but the chosen names.
-/

namespace Cascade

namespace Declaration

/-- Every choice of one name for each of some nested declarations.  The name of
the outermost one changes last. -/
def namings : List Declaration → List (List Text)
  | [] => [[]]
  | outer :: inner =>
      outer.choices.flatMap fun name => (namings inner).map (name :: ·)

/-- Declarations that hold one name each, one inside the other.  Only the
innermost keeps its body. -/
def chain (node : Declaration) : List Declaration → List Text → Declaration
  | outer :: above, name :: names =>
      ⟨outer.kind, [name], none, [chain node above names]⟩
  | _, names => ⟨node.kind, names, node.body, []⟩

end Declaration

/-- A node of a tree and the nodes above it, the outermost first. -/
structure Place where
  above : List Declaration
  node : Declaration

namespace Place

/-- The nodes on the way from the root to a place, both included. -/
def path (place : Place) : List Declaration :=
  place.above ++ [place.node]

def namings (place : Place) : List (List Text) :=
  Declaration.namings place.path

def chain (place : Place) (names : List Text) : Declaration :=
  place.node.chain place.above names

def IsParent (place child : Place) : Prop :=
  child.above = place.path ∧ child.node ∈ place.node.children

def map (change : Declaration → Declaration) (place : Place) : Place :=
  ⟨place.above.map change, change place.node⟩

theorem path_map (change : Declaration → Declaration) (place : Place) :
    (place.map change).path = place.path.map change := by
  rw [path, path, List.map_append, List.map_singleton]
  rfl

end Place

namespace Declaration

mutual

/-- The places of a tree in pre-order, below some other nodes. -/
def places (above : List Declaration) : Declaration → List Place
  | ⟨kind, names, body, children⟩ =>
      ⟨above, ⟨kind, names, body, children⟩⟩ ::
        allPlaces (above ++ [⟨kind, names, body, children⟩]) children

def allPlaces (above : List Declaration) : List Declaration → List Place
  | [] => []
  | declaration :: rest => places above declaration ++ allPlaces above rest

end

/-! ## Choices of names -/

theorem mem_namings_cons {outer : Declaration} {inner : List Declaration}
    {names : List Text} :
    names ∈ namings (outer :: inner) ↔
      ∃ name ∈ outer.choices, ∃ rest ∈ namings inner, names = name :: rest := by
  simp [namings, eq_comm]

theorem mem_namings_append {first second : List Declaration}
    {names : List Text} :
    names ∈ namings (first ++ second) ↔
      ∃ front ∈ namings first, ∃ back ∈ namings second, names = front ++ back := by
  induction first generalizing names with
  | nil => simp [namings]
  | cons outer first ih =>
      rw [List.cons_append, mem_namings_cons]
      constructor
      · rintro ⟨name, hname, rest, hrest, rfl⟩
        obtain ⟨front, hfront, back, hback, rfl⟩ := ih.mp hrest
        exact ⟨name :: front, mem_namings_cons.mpr ⟨name, hname, front, hfront, rfl⟩,
          back, hback, rfl⟩
      · rintro ⟨front, hfront, back, hback, rfl⟩
        obtain ⟨name, hname, rest, hrest, rfl⟩ := mem_namings_cons.mp hfront
        exact ⟨name, hname, rest ++ back, ih.mpr ⟨rest, hrest, back, hback, rfl⟩, rfl⟩

/-- The names of the innermost declaration change first. -/
theorem namings_concat (path : List Declaration) (last : Declaration) :
    namings (path ++ [last]) = (namings path).flatMap fun names =>
      last.choices.map fun name => names ++ [name] := by
  induction path with
  | nil => simp [namings, ← List.map_eq_flatMap]
  | cons outer path ih =>
      simp only [List.cons_append, namings, ih, List.flatMap_assoc,
        List.map_flatMap, List.flatMap_map, List.map_map]
      rfl

theorem length_of_mem_namings {path : List Declaration} {names : List Text}
    (h : names ∈ namings path) : names.length = path.length := by
  induction path generalizing names with
  | nil => simp_all [namings]
  | cons outer path ih =>
      obtain ⟨name, _, rest, hrest, rfl⟩ := mem_namings_cons.mp h
      rw [List.length_cons, List.length_cons, ih hrest]

theorem namings_congr {path other : List Declaration}
    (h : path.map choices = other.map choices) : namings path = namings other := by
  induction path generalizing other with
  | nil =>
      obtain rfl := List.map_eq_nil_iff.mp h.symm
      rfl
  | cons outer path ih =>
      obtain ⟨outer', inner, rfl, houter, hinner⟩ := List.map_eq_cons_iff.mp h.symm
      rw [namings, namings, houter, ih hinner.symm]

theorem exists_mem_namings {path : List Declaration}
    (h : ∀ declaration ∈ path, declaration.choices ≠ []) :
    ∃ names, names ∈ namings path := by
  induction path with
  | nil => exact ⟨[], by simp [namings]⟩
  | cons outer path ih =>
      rw [List.forall_mem_cons] at h
      obtain ⟨name, hname⟩ := List.exists_mem_of_ne_nil _ h.1
      obtain ⟨rest, hrest⟩ := ih h.2
      exact ⟨name :: rest, mem_namings_cons.mpr ⟨name, hname, rest, hrest, rfl⟩⟩

/-! ## The way down -/

theorem mem_places_self {above : List Declaration} {declaration : Declaration} :
    ⟨above, declaration⟩ ∈ places above declaration := by
  obtain ⟨kind, names, body, children⟩ := declaration
  exact List.mem_cons_self

theorem places_eq {above : List Declaration} {declaration : Declaration} :
    places above declaration =
      ⟨above, declaration⟩ ::
        allPlaces (above ++ [declaration]) declaration.children := by
  obtain ⟨kind, names, body, children⟩ := declaration
  rw [places]

mutual

/-- A change that is made at every node of a tree is made at its places one by one. -/
theorem places_map {change : Declaration → Declaration}
    (hchange : ∀ node, (change node).children = node.children.map change)
    (declaration : Declaration) (above : List Declaration) :
    places (above.map change) (change declaration) =
      (places above declaration).map (Place.map change) := by
  match declaration with
  | ⟨kind, names, body, children⟩ =>
      have hbelow := allPlaces_map hchange children
        (above ++ [⟨kind, names, body, children⟩])
      rw [List.map_append, List.map_singleton] at hbelow
      rw [places_eq, hchange, hbelow, @places_eq above, List.map_cons]
      rfl

theorem allPlaces_map {change : Declaration → Declaration}
    (hchange : ∀ node, (change node).children = node.children.map change)
    (declarations : List Declaration) (above : List Declaration) :
    allPlaces (above.map change) (declarations.map change) =
      (allPlaces above declarations).map (Place.map change) := by
  match declarations with
  | [] => rfl
  | declaration :: rest =>
      rw [List.map_cons, allPlaces, allPlaces, List.map_append,
        places_map hchange declaration above, allPlaces_map hchange rest above]

end

theorem mem_allPlaces_iff {above declarations : List Declaration} {place : Place} :
    place ∈ allPlaces above declarations ↔
      ∃ declaration ∈ declarations, place ∈ places above declaration := by
  induction declarations with
  | nil => simp [allPlaces]
  | cons declaration rest ih => simp [allPlaces, ih]

mutual

/-- In pre-order a place below the root has its parent somewhere before it. -/
theorem exists_parent_of_places_eq (declaration : Declaration)
    (above : List Declaration) {place : Place} {before after : List Place}
    (h : places above declaration = before ++ place :: after) :
    place = ⟨above, declaration⟩ ∨ ∃ parent ∈ before, parent.IsParent place := by
  match declaration with
  | ⟨kind, names, body, children⟩ =>
      rw [places_eq] at h
      cases before with
      | nil => exact .inl (List.cons.inj h).1.symm
      | cons root before =>
          obtain ⟨rfl, hbelow⟩ := List.cons.inj h
          right
          rcases exists_parent_of_allPlaces_eq children _ hbelow with
            ⟨habove, hnode⟩ | ⟨parent, hparent, hchild⟩
          · exact ⟨_, List.mem_cons_self, habove, hnode⟩
          · exact ⟨parent, List.mem_cons_of_mem _ hparent, hchild⟩

theorem exists_parent_of_allPlaces_eq (declarations : List Declaration)
    (above : List Declaration) {place : Place} {before after : List Place}
    (h : allPlaces above declarations = before ++ place :: after) :
    (place.above = above ∧ place.node ∈ declarations) ∨
      ∃ parent ∈ before, parent.IsParent place := by
  match declarations with
  | [] => simp [allPlaces] at h
  | declaration :: rest =>
      have hrest {before' : List Place}
          (h : allPlaces above rest = before' ++ place :: after) :
          (place.above = above ∧ place.node ∈ declaration :: rest) ∨
            ∃ parent ∈ before', parent.IsParent place :=
        (exists_parent_of_allPlaces_eq rest above h).imp_left
          (And.imp_right (List.mem_cons_of_mem _))
      rw [allPlaces] at h
      rcases List.append_eq_append_iff.mp h with
        ⟨before', rfl, hbehind⟩ | ⟨tail, hfirst, hbehind⟩
      · refine (hrest hbehind).imp_right ?_
        rintro ⟨parent, hparent, hchild⟩
        exact ⟨parent, List.mem_append_right _ hparent, hchild⟩
      · cases tail with
        | nil =>
            have hrest' : allPlaces above rest = [] ++ place :: after := hbehind.symm
            refine (hrest hrest').imp_right ?_
            rintro ⟨parent, hparent, _⟩
            cases hparent
        | cons other tail =>
            obtain ⟨rfl, _⟩ := List.cons.inj hbehind
            refine (exists_parent_of_places_eq declaration above hfirst).imp_left ?_
            rintro rfl
            exact ⟨rfl, List.mem_cons_self⟩

end

open Relation (ReflTransGen)

mutual

/-- Every place of a tree is below its root. -/
theorem reflTransGen_of_mem_places (declaration : Declaration)
    (above : List Declaration) {place : Place}
    (h : place ∈ places above declaration) :
    ReflTransGen Place.IsParent ⟨above, declaration⟩ place := by
  match declaration with
  | ⟨kind, names, body, children⟩ =>
      rw [places_eq] at h
      rcases List.mem_cons.mp h with rfl | h
      · exact .refl
      · obtain ⟨child, hchild, hbelow⟩ :=
          reflTransGen_of_mem_allPlaces children _ h
        exact .head ⟨rfl, hchild⟩ hbelow

theorem reflTransGen_of_mem_allPlaces (declarations : List Declaration)
    (above : List Declaration) {place : Place}
    (h : place ∈ allPlaces above declarations) :
    ∃ declaration ∈ declarations,
      ReflTransGen Place.IsParent ⟨above, declaration⟩ place := by
  match declarations with
  | [] => cases h
  | declaration :: rest =>
      rw [allPlaces] at h
      rcases List.mem_append.mp h with h | h
      · exact ⟨declaration, List.mem_cons_self,
          reflTransGen_of_mem_places declaration above h⟩
      · obtain ⟨other, hother, hbelow⟩ :=
          reflTransGen_of_mem_allPlaces rest above h
        exact ⟨other, List.mem_cons_of_mem _ hother, hbelow⟩

end

/-- The places of a tree are what is reached from its root by going down. -/
theorem mem_places_iff {above : List Declaration} {declaration : Declaration}
    {place : Place} :
    place ∈ places above declaration ↔
      ReflTransGen Place.IsParent ⟨above, declaration⟩ place := by
  constructor
  · exact reflTransGen_of_mem_places declaration above
  · intro h
    have hroot (root : Place) (h : ReflTransGen Place.IsParent root place) :
        place ∈ places root.above root.node := by
      induction h using ReflTransGen.head_induction_on with
      | refl => exact mem_places_self
      | @head parent child hparent _ ih =>
          rw [hparent.1] at ih
          rw [places_eq]
          exact List.mem_cons_of_mem _
            (mem_allPlaces_iff.mpr ⟨child.node, hparent.2, ih⟩)
    exact hroot _ h

/-- What is below a place is a place of the same tree. -/
theorem mem_places_trans {above : List Declaration} {declaration : Declaration}
    {place lower : Place} (h : place ∈ places above declaration)
    (hlower : lower ∈ places place.above place.node) :
    lower ∈ places above declaration :=
  mem_places_iff.mpr ((mem_places_iff.mp h).trans (mem_places_iff.mp hlower))

/-- Every node on the way to a place has a place of its own, unless it stands
above the tree. -/
theorem exists_place_of_mem_path {above : List Declaration}
    {declaration : Declaration} {place : Place}
    (h : place ∈ places above declaration) {node : Declaration}
    (hnode : node ∈ place.path) :
    node ∈ above ∨ ∃ other ∈ places above declaration, other.node = node := by
  have hbelow := mem_places_iff.mp h
  clear h
  induction hbelow with
  | refl =>
      rcases List.mem_append.mp hnode with hnode | hnode
      · exact .inl hnode
      · exact .inr ⟨_, mem_places_self, (List.mem_singleton.mp hnode).symm⟩
  | @tail parent child hparent hchild ih =>
      rw [Place.path, hchild.1] at hnode
      rcases List.mem_append.mp hnode with hnode | hnode
      · exact ih hnode
      · exact .inr ⟨child, mem_places_iff.mpr (.tail hparent hchild),
          (List.mem_singleton.mp hnode).symm⟩

/-- What is true of every node of a tree is true of the nodes on the way to a
place. -/
theorem forall_mem_path {declaration : Declaration} {holds : Declaration → Prop}
    (h : ∀ place ∈ places [] declaration, holds place.node) {place : Place}
    (hplace : place ∈ places [] declaration) : ∀ node ∈ place.path, holds node := by
  intro node hnode
  obtain hnone | ⟨other, hother, rfl⟩ := exists_place_of_mem_path hplace hnode
  · cases hnone
  · exact h other hother

end Declaration

end Cascade
