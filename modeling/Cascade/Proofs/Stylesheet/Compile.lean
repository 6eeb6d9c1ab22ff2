import Cascade.Proofs.Naming.Braceless

/-!
# Where rules come from

Every selector of a rule is what some place of the stylesheet yields for a choice
of names, be it in a declaration or among the targets of a policy, which only
writes another body to it.
-/

namespace Cascade

namespace Item

def places : Item → List Place
  | .ofDeclaration declaration => Declaration.places [] declaration
  | .ofPolicy policy => Declaration.allPlaces [] policy.targets

variable {item : Item} {symbols : Symbols} {place : Place} {visits : List Visit}
  {rules : List Rule} {rule : Rule}

theorem exists_place_of_mem_path (hplace : place ∈ item.places) {node : Declaration}
    (hnode : node ∈ place.path) : ∃ other ∈ item.places, other.node = node := by
  cases item with
  | ofDeclaration declaration =>
      exact (Declaration.exists_place_of_mem_path hplace hnode).resolve_left (by simp)
  | ofPolicy policy =>
      obtain ⟨target, htarget, hbelow⟩ := Declaration.mem_allPlaces_iff.mp hplace
      obtain ⟨other, hother, heq⟩ :=
        (Declaration.exists_place_of_mem_path hbelow hnode).resolve_left (by simp)
      exact ⟨other, Declaration.mem_allPlaces_iff.mpr ⟨target, htarget, hother⟩, heq⟩

/-- What the walk over an item has visited. -/
theorem forall₂_trace (h : (item.trace symbols).result = .ok visits) :
    (∀ place ∈ item.places, place.node.choices ≠ []) ∧
      List.Forall₂ (Place.IsVisited symbols)
        (item.places.filter fun place => place.node.isVisited) visits := by
  cases item with
  | ofDeclaration declaration =>
      exact Declaration.forall₂_walk declaration [] [.empty] visits
        Declaration.follow_empty (by simp) h
  | ofPolicy policy =>
      exact Declaration.forall₂_walkAll policy.targets [] [.empty] visits
        Declaration.follow_empty (by simp) h

/-- A selector that some place of an item yields, whatever body it is written
for. -/
def Gives (symbols : Symbols) (item : Item) (named : NamedSelector) : Prop :=
  ∃ place ∈ item.places, ∃ names ∈ place.namings, ∃ found,
    place.Yields symbols names found ∧ named = { found with body := named.body }

/-- Every visit holds selectors, all of them given by the item. -/
theorem gives_of_mem_visits (h : (item.trace symbols).result = .ok visits)
    {visit : Visit} (hvisit : visit ∈ visits) :
    visit.selectors ≠ [] ∧ ∀ named ∈ visit.selectors, item.Gives symbols named := by
  obtain ⟨hchoices, hall⟩ := forall₂_trace h
  obtain ⟨place, hplace, _, hyields⟩ := exists_of_mem_right hall hvisit
  have hplace := (List.mem_filter.mp hplace).1
  constructor
  · obtain ⟨names, hnames⟩ : ∃ names, names ∈ place.namings := by
      refine Declaration.exists_mem_namings fun node hnode => ?_
      obtain ⟨other, hother, rfl⟩ := exists_place_of_mem_path hplace hnode
      exact hchoices other hother
    obtain ⟨named, hnamed, _⟩ := exists_of_mem_left hyields hnames
    exact List.ne_nil_of_mem hnamed
  · intro named hnamed
    obtain ⟨names, hnames, hyield⟩ := exists_of_mem_right hyields hnamed
    exact ⟨place, hplace, names, hnames, named, hyield, rfl⟩

/-- Every rule holds selectors, all of them given by the item. -/
theorem gives_of_mem_rules (h : item.rules symbols = .ok rules) (hrule : rule ∈ rules) :
    rule.selectors ≠ [] ∧ ∀ named ∈ rule.selectors, item.Gives symbols named := by
  obtain ⟨visits, hvisits, rfl⟩ := exists_of_map_eq_ok h
  cases item with
  | ofDeclaration declaration =>
      obtain ⟨visit, hvisit, hbody⟩ := List.mem_filterMap.mp hrule
      obtain ⟨body, _, rfl⟩ := Option.map_eq_some_iff.mp hbody
      exact gives_of_mem_visits hvisits hvisit
  | ofPolicy policy =>
      simp only [rulesOf, Option.mem_toList, Policy.ruleOf] at hrule
      split at hrule
      · cases hrule
      · rename_i first rest hleaves
        cases hrule
        refine ⟨by simp [Rule.group], fun named hnamed => ?_⟩
        obtain ⟨leaf, hleaf, rfl⟩ := List.mem_map.mp hnamed
        rw [← hleaves] at hleaf
        obtain ⟨visit, hvisit, hleaf⟩ := List.mem_flatMap.mp hleaf
        unfold Visit.leaves at hleaf
        split at hleaf
        · obtain ⟨place, hplace, names, hnames, found, hyields, hfound⟩ :=
            (gives_of_mem_visits hvisits hvisit).2 leaf hleaf
          exact ⟨place, hplace, names, hnames, found, hyields, by rw [hfound]⟩
        · cases hleaf

end Item

namespace Stylesheet

def places (sheet : Stylesheet) : List Place :=
  sheet.flatMap Item.places

variable {table : SymbolTable} {sheet : Stylesheet} {rules : List Rule} {rule : Rule}

/-- Every rule of a stylesheet is a rule of one of its items. -/
theorem exists_item_of_mem_compile (h : sheet.compile table = .ok rules)
    (hrule : rule ∈ rules) : ∃ item ∈ sheet, ∃ own,
      item.rules table.current = .ok own ∧ rule ∈ own := by
  obtain ⟨lists, hlists, rfl⟩ := exists_of_map_eq_ok h
  obtain ⟨own, hown, hmem⟩ := List.mem_flatten.mp hrule
  obtain ⟨item, hitem, hrules⟩ := (exists_of_mem_mapM hlists).2 own hown
  exact ⟨item, hitem, own, hrules, hmem⟩

/-- Every rule holds selectors, and what it holds some place yields. -/
theorem exists_yields_of_mem_compile (h : sheet.compile table = .ok rules)
    (hrule : rule ∈ rules) :
    rule.selectors ≠ [] ∧ ∀ named ∈ rule.selectors,
      ∃ (place : Place) (names : List Text) (found : NamedSelector),
      (∀ node ∈ place.path, ∃ other ∈ sheet.places, other.node = node) ∧
        names ∈ place.namings ∧ place.Yields table.current names found ∧
        named = { found with body := named.body } := by
  obtain ⟨item, hitem, own, hown, hmem⟩ := exists_item_of_mem_compile h hrule
  obtain ⟨hne, hgives⟩ := Item.gives_of_mem_rules hown hmem
  refine ⟨hne, fun named hnamed => ?_⟩
  obtain ⟨place, hplace, names, hnames, found, hyields, hfound⟩ := hgives named hnamed
  refine ⟨place, names, found, fun node hnode => ?_, hnames, hyields, hfound⟩
  obtain ⟨other, hother, heq⟩ := Item.exists_place_of_mem_path hplace hnode
  exact ⟨other, List.mem_flatMap.mpr ⟨item, hitem, hother⟩, heq⟩

/-- Fragments or not, every selector is assembled and can be trimmed at its ends. -/
theorem hasTrimmableEnds_of_mem_compile (h : sheet.compile table = .ok rules)
    (hrule : rule ∈ rules) :
    ∀ named ∈ rule.selectors, Selector.Assembled Simple.IsSpelled named.selector ∧
      Selector.HasTrimmableEnds named.selector := by
  intro named hnamed
  obtain ⟨place, names, found, _, _, hyields, hfound⟩ :=
    (exists_yields_of_mem_compile h hrule).2 named hnamed
  rw [hfound]
  exact hyields.hasTrimmableEnds

/-- Without fragments every selector is made of names, and its tally is its
weight. -/
theorem plain_of_mem_compile (h : sheet.compile table = .ok rules)
    (hraw : ∀ place ∈ sheet.places, place.node.kind ≠ .raw) (hrule : rule ∈ rules) :
    ∀ named ∈ rule.selectors, Selector.Assembled Simple.IsPlain named.selector ∧
      named.specificity = Selector.specificity named.selector := by
  intro named hnamed
  obtain ⟨place, names, found, hpath, _, hyields, hfound⟩ :=
    (exists_yields_of_mem_compile h hrule).2 named hnamed
  rw [hfound]
  refine hyields.plain fun node hnode => ?_
  obtain ⟨other, hother, rfl⟩ := hpath node hnode
  exact hraw other hother

/-- The places of a stylesheet hold declarations without fragments and without
opening braces. -/
def IsPlain (sheet : Stylesheet) : Prop :=
  ∀ place ∈ sheet.places, place.node.IsPlain

/-- Then there is no opening brace in any selector. -/
theorem braceless_of_mem_compile (h : sheet.compile table = .ok rules)
    (hsymbols : table.current.Braceless) (hplain : sheet.IsPlain) (hrule : rule ∈ rules) :
    ∀ named ∈ rule.selectors, ∀ link ∈ named.selector, ∀ simple ∈ link.compound,
      '{' ∉ simple.text := by
  intro named hnamed
  obtain ⟨place, names, found, hpath, hnames, hyields, hfound⟩ :=
    (exists_yields_of_mem_compile h hrule).2 named hnamed
  rw [hfound]
  refine hyields.braceless hsymbols (fun node hnode => ?_) hnames
  obtain ⟨other, hother, rfl⟩ := hpath node hnode
  exact hplain other hother

end Stylesheet

end Cascade
