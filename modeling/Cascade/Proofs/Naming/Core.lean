import Cascade.Proofs.Naming.Scope

/-!
# A selector and the one above it

The scope compound is written last, so what one more declaration does to a selector
shows only without it.  The core of a selector is what was built on the way to its
place, and the way to the declaration right above is the same but for its last name:
that chain has a selector of its own, and the last name leads from the one core to
the other.
-/

namespace Cascade

/-- What the way to a place has built has a text. -/
theorem Draft.Reaches.assembled {symbols : Symbols} {above : List Declaration}
    {node : Declaration} {names : List Text} {last : Draft}
    (h : Reaches symbols .empty (above ++ [node]) names last) :
    Selector.Assembled Simple.IsSpelled last.links := by
  obtain ⟨hbuilt, hlinks⟩ := h.built (fun _ hplain => hplain.isSpelled) fun _ _ => Iff.rfl
  exact hbuilt.assembled_of_ne_nil hlinks

namespace Place

open Draft (Reaches Passes)

/-- Whether the kinds on the way to a place call for a scope compound. -/
def isLed (place : Place) : Bool :=
  place.crosses .tweak || (place.crosses .option && !place.crosses .raw)

/-- A selector of a place without its scope compound. -/
def core (place : Place) (selector : Selector) : Selector :=
  if place.isLed then selector.tail else selector

variable {symbols : Symbols} {place upper : Place} {names : List Text}
  {named : NamedSelector} {draft : Draft}

theorem core_lead_append (place : Place) (root : Text) (links : Selector) :
    place.core (place.lead root ++ links) = links := by
  unfold core isLed lead scope
  cases place.crosses .tweak <;> cases place.crosses .option <;>
    cases place.crosses .raw <;> rfl

/-- The core is what the names on the way have built. -/
theorem Yields.core_eq (h : place.Yields symbols names named)
    (hreaches : Reaches symbols .empty place.path names draft) :
    place.core named.selector = draft.links := by
  obtain ⟨root, last, _, hlast, hselector⟩ := h.exists_lead
  obtain rfl := hlast.unique hreaches
  rw [hselector, core_lead_append]

/-- The scope compound stands in front of the core. -/
theorem Yields.exists_lead_core (h : place.Yields symbols names named) :
    ∃ root, (place.crosses .tweak = true → Ident.escape? symbols.rootId = some root) ∧
      named.selector = place.lead root ++ place.core named.selector := by
  obtain ⟨root, draft, hroot, hreaches, hselector⟩ := h.exists_lead
  exact ⟨root, hroot, by rw [h.core_eq hreaches, ← hselector]⟩

/-- The last name on the way to a place, and what it is applied to. -/
theorem Yields.exists_passes (h : place.Yields symbols names named) :
    ∃ name draft next, names = names.dropLast ++ [name] ∧
      Reaches symbols .empty place.above names.dropLast draft ∧
      Passes symbols draft place.node.kind name next ∧
      place.core named.selector = next.links := by
  obtain ⟨next, hreaches, _⟩ := id h
  have hcore := h.core_eq hreaches
  obtain ⟨front, back, draft, rfl, hfront, hback⟩ := Draft.reaches_append_iff.mp hreaches
  cases hback with
  | step hpasses hrefl =>
      cases hrefl
      rw [List.dropLast_concat]
      exact ⟨_, draft, next, rfl, hfront, hpasses, hcore⟩

/-- Where a way ends with a selector, so does the way to the declaration above: what
it takes to finish a draft it has taken before. -/
theorem Yields.exists_yields (h : place.Yields symbols names named)
    (hupper : place.above = upper.path) :
    ∃ shorter, upper.Yields symbols names.dropLast shorter := by
  obtain ⟨name, draft, next, hnames, hreaches, hpasses, _⟩ := h.exists_passes
  obtain ⟨last, hlast, hfinish⟩ := h
  rw [hnames, path, Draft.reaches_concat_iff] at hlast
  obtain ⟨other, hother, hlast⟩ := hlast
  obtain rfl := hother.unique hreaches
  have hroot := Draft.exists_finish_iff.mp ⟨named, hfinish⟩
  have hstep : Reaches symbols other [place.node] [name] last := .step hlast .refl
  obtain ⟨shorter, hshorter⟩ : ∃ shorter, other.finish symbols.rootId
      (upper.node.body.getD []) = .ok shorter :=
    Draft.exists_finish_iff.mpr fun hrooted => hroot (hstep.rooted hrooted)
  exact ⟨shorter, other, hupper ▸ hreaches, hshorter⟩

end Place

namespace Declaration

variable {table : SymbolTable} {declaration : Declaration} {place upper : Place}
  {names : List Text} {named : NamedSelector}

/-- The leaf of a chain has one selector, the one that the names yield. -/
theorem leaves_chain_eq_ok_iff (hnames : names ∈ place.namings)
    {leaves : List NamedSelector} :
    (place.chain names).leaves table = .ok leaves ↔
      ∃ named, place.Yields table.current names named ∧ leaves = [named] := by
  have hchain {visits : List Visit} := @walk_chain_result_eq_ok_iff table.current
    .empty place.above visits place.node names hnames
  constructor
  · intro h
    obtain ⟨visits, hvisits, rfl⟩ := exists_of_map_eq_ok h
    obtain ⟨last, named, hreaches, hfinish, rfl⟩ := hchain.mp hvisits
    exact ⟨named, ⟨last, hreaches, hfinish⟩, by simp [Visit.allLeaves, Visit.leaves, isLeaf]⟩
  · rintro ⟨named, ⟨last, hreaches, hfinish⟩, rfl⟩
    rw [Declaration.leaves, Place.chain, hchain.mpr ⟨last, named, hreaches, hfinish, rfl⟩]
    simp [Visit.allLeaves, Visit.leaves, isLeaf, Except.map]

/-- The chain that ends right above a place has a selector as well. -/
theorem exists_leaves_above (hnames : names ∈ place.namings)
    (h : place.Yields table.current names named) (hupper : place.above = upper.path) :
    ∃ shorter, (upper.chain names.dropLast).leaves table = .ok [shorter] ∧
      upper.Yields table.current names.dropLast shorter := by
  obtain ⟨shorter, hshorter⟩ := h.exists_yields hupper
  have hfront : names.dropLast ∈ upper.namings := by
    rw [Place.namings, Place.path, namings_concat] at hnames
    obtain ⟨front, hfront, name, _, rfl⟩ : ∃ front ∈ namings place.above,
        ∃ name ∈ place.node.choices, front ++ [name] = names := by
      simpa using hnames
    rw [List.dropLast_concat, Place.namings, ← hupper]
    exact hfront
  exact ⟨shorter, (leaves_chain_eq_ok_iff hfront).mpr ⟨shorter, hshorter, rfl⟩, hshorter⟩

/-- Something is true of the selectors of every rule, and of every leaf: of each with
its place and with the names chosen on the way there. -/
def EachNamed (table : SymbolTable) (declaration : Declaration)
    (holds : Place → List Text → NamedSelector → Prop) : Prop :=
  (∀ rules, declaration.rules table = .ok rules →
      List.Forall₂ (fun place rule =>
          List.Forall₂ (holds place) place.namings rule.selectors)
        ((places [] declaration).filter fun place => place.node.body.isSome)
        rules) ∧
    ∀ leaves, declaration.leaves table = .ok leaves →
      ∃ groups : List (List NamedSelector), leaves = groups.flatten ∧
        List.Forall₂ (fun place group =>
            List.Forall₂ (holds place) place.namings group)
          ((places [] declaration).filter fun place => place.node.isLeaf)
          groups

/-- What is true of whatever places yield is true of all selectors of a tree. -/
theorem eachNamed_of_yields {holds : Place → List Text → NamedSelector → Prop}
    (h : ∀ place names named, names ∈ place.namings →
      place.Yields table.current names named → holds place names named) :
    EachNamed table declaration holds := by
  have hall {place : Place} {group : List NamedSelector}
      (hyields : List.Forall₂ (place.Yields table.current) place.namings group) :
      List.Forall₂ (holds place) place.namings group :=
    ((List.forall₂_and_left _ _).mpr ⟨fun _ hnames => hnames, hyields⟩).imp
      fun _ _ ⟨hnames, hyield⟩ => h place _ _ hnames hyield
  constructor
  · intro rules hrules
    exact (forall₂_yields_of_rules hrules).imp fun _ _ hyields => hall hyields.2
  · intro leaves hleaves
    obtain ⟨groups, rfl, hyields⟩ := exists_forall₂_yields_of_leaves hleaves
    exact ⟨groups, rfl, hyields.imp fun _ _ => hall⟩

end Declaration

end Cascade
