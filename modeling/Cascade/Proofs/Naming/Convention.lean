import Cascade.Proofs.Naming.Chain
import Cascade.Proofs.Naming.Core

/-!
# The naming convention in closed form

Three things decide what a declaration does to a draft: the name that a part would
continue, whether an option stands on the current element, and the last compound.
Without fragments each of them can be read off the chain of declarations so far, and
so can the selector: its last compound holds the class of the current name and those
of the options on it, and there is one compound for each element of the chain.
-/

namespace Cascade

/-- How one more declaration changes a selector: in the last compound only, or behind
it. -/
inductive Selector.Grows : Kind → Selector → Selector → Prop
  /-- A part or an option on the current element. -/
  | within {kind : Kind} {front : Selector} {compound other : Compound} :
      kind = .part ∨ kind = .option →
      Grows kind (front ++ [⟨compound, .none⟩]) (front ++ [⟨other, .none⟩])
  /-- A new element below the current one. -/
  | below {kind : Kind} {front : Selector} {compound other : Compound} :
      kind.namesElement = true →
      Grows kind (front ++ [⟨compound, .none⟩])
        (front ++ [⟨compound, .descendant⟩, ⟨other, .none⟩])
  /-- The current element once more. -/
  | copy {front : Selector} {compound : Compound} :
      Grows .sibling (front ++ [⟨compound, .none⟩])
        (front ++ [⟨compound, .adjacent⟩, ⟨compound, .none⟩])

namespace Selector

variable {kind : Kind} {front : Selector} {compound : Compound}

theorem push_concat (front : Selector) (compound other : Compound)
    (combinator : Combinator) :
    push (front ++ [⟨compound, .none⟩]) combinator other =
      front ++ [⟨compound, combinator⟩, ⟨other, .none⟩] := by
  rw [push, mapLast_concat, List.append_assoc, List.singleton_append]

theorem grows_push {other : Compound} (h : kind.namesElement = true) :
    Grows kind (front ++ [⟨compound, .none⟩])
      (push (front ++ [⟨compound, .none⟩]) .descendant other) := by
  rw [push_concat]
  exact .below h

theorem grows_copy :
    Grows .sibling (front ++ [⟨compound, .none⟩])
      (push (front ++ [⟨compound, .none⟩]) .adjacent compound) := by
  rw [push_concat]
  exact .copy

theorem grows_mapLast (change : Compound → Compound)
    (h : kind = .part ∨ kind = .option) :
    Grows kind (front ++ [⟨compound, .none⟩])
      (mapLast (fun last => { last with compound := change last.compound })
        (front ++ [⟨compound, .none⟩])) := by
  rw [mapLast_concat]
  exact .within h

end Selector

/-- A compound of classes that are the written forms of some names. -/
def Compound.IsWritten (names : List Text) (compound : Compound) : Prop :=
  List.Forall₂ (fun name simple => ∃ text, Ident.escape? name = some text ∧
    simple = .className text) names compound

namespace Draft

open Compound (IsWritten)

/-- A draft that is what the chain of declarations so far says. -/
structure Conforms (symbols : Symbols) (chain : Chain) (draft : Draft) : Prop where
  base : draft.base = chain.base? symbols
  named : draft.links ≠ [] → draft.base.isSome = true
  /-- The current element has its name and its options. -/
  last : ∀ base ∈ draft.base, ∃ front compound, draft.links = front ++ [⟨compound, .none⟩] ∧
    IsWritten (base :: chain.lastOptions.map symbols.mark) compound
  pristine : draft.base.isSome = true → draft.pristine = chain.lastOptions.isEmpty
  length : draft.links.length = chain.elements

variable {symbols : Symbols} {draft next last : Draft} {chain : Chain} {step : Step}
  {kind : Kind} {name : Text}

theorem isWritten_singleton {text : Text} (h : escaped name = .ok text) :
    IsWritten [name] [.className text] :=
  .cons ⟨text, escape?_of_escaped h, rfl⟩ .nil

theorem conforms_empty : Conforms symbols [] .empty where
  base := rfl
  named := absurd rfl
  last := nofun
  pristine := nofun
  length := rfl

theorem length_push (links : Selector) (combinator : Combinator) (compound : Compound) :
    (links.push combinator compound).length = links.length + 1 := by
  rw [Selector.push, List.length_append, Selector.length_mapLast, List.length_singleton]

/-! ## Each kind of declaration -/

/-- A named element opens with its class alone, be it below the links or in the place
of the last of them. -/
theorem Conforms.settle {full text : Text} {front : Selector}
    (htext : escaped full = .ok text) (hnames : step.kind.namesElement = true)
    (hlinks : draft.links = front ++ [⟨[.className text], .none⟩])
    (hbase : Chain.base? symbols (chain ++ [step]) = some full)
    (hlength : draft.links.length = Chain.elements (chain ++ [step])) :
    Conforms symbols (chain ++ [step]) (draft.settle full) where
  base := hbase.symm
  named _ := rfl
  last := by
    rintro _ ⟨⟩
    rw [Chain.lastOptions_concat_of_namesElement hnames]
    exact ⟨front, _, hlinks, isWritten_singleton htext⟩
  pristine _ := by rw [Chain.lastOptions_concat_of_namesElement hnames]; rfl
  length := hlength

theorem Conforms.block (hdraft : Conforms symbols chain draft) (step : Step) {text : Text}
    (hblock : step.kind.isBlock = true) (htext : escaped (symbols.mark step) = .ok text)
    (scope : Scope) :
    Conforms symbols (chain ++ [step])
      (({ draft with scope := scope }.pushClass text).settle (symbols.mark step)) := by
  refine .settle htext (by simp [Kind.namesElement, hblock]) rfl ?_ ?_
  · rw [Chain.base?_concat, if_pos hblock]
  · refine (length_push _ _ _).trans ?_
    have hkind : step.kind ≠ .sibling ∧ step.kind ≠ .part := by
      constructor <;> rintro h <;> rw [h] at hblock <;> cases hblock
    rw [Chain.elements_concat, hdraft.length]
    simp [hblock, hkind]

theorem Conforms.replace (hdraft : Conforms symbols chain draft) {base text : Text}
    (hbase : draft.base = some base) (hpristine : draft.pristine = true)
    (htext : escaped (base ++ symbols.part ++ name) = .ok text) :
    Conforms symbols (chain ++ [⟨.part, name⟩]) ({ draft with
      links := draft.links.mapLast fun last =>
        { last with compound := [.className text] } }.settle
      (base ++ symbols.part ++ name)) := by
  obtain ⟨front, compound, hlinks, _⟩ := hdraft.last base hbase
  -- Without options the compound that is replaced holds the block's class only.
  have hoptions : chain.lastOptions = [] := by
    rw [← List.isEmpty_iff, ← hdraft.pristine (by rw [hbase]; rfl), hpristine]
  refine .settle htext rfl (?_ : _ = front ++ _) ?_ ?_
  · simp [hlinks]
  · simp [Chain.base?_concat, ← hdraft.base, hbase, Kind.isBlock, Symbols.mark]
  · simp [Chain.elements_concat, hdraft.length, hoptions, Kind.isBlock]

theorem Conforms.part (hdraft : Conforms symbols chain draft) {base text : Text}
    (hbase : draft.base = some base) (hpristine : draft.pristine = false)
    (htext : escaped (base ++ symbols.part ++ name) = .ok text) :
    Conforms symbols (chain ++ [⟨.part, name⟩])
      ((draft.pushClass text).settle (base ++ symbols.part ++ name)) := by
  have hoptions : chain.lastOptions ≠ [] := by
    rw [← List.isEmpty_eq_false_iff, ← hdraft.pristine (by rw [hbase]; rfl), hpristine]
  refine .settle htext rfl rfl ?_ ?_
  · simp [Chain.base?_concat, ← hdraft.base, hbase, Kind.isBlock, Symbols.mark]
  · refine (length_push _ _ _).trans ?_
    simp [Chain.elements_concat, hdraft.length, hoptions, Kind.isBlock]

theorem Conforms.option (hdraft : Conforms symbols chain draft) {text : Text}
    (hbase : draft.base.isSome = true) (htext : escaped (symbols.option ++ name) = .ok text)
    (tally : Tally) (scope : Scope) :
    Conforms symbols (chain ++ [⟨.option, name⟩]) { draft with
      links := draft.links.mapLast fun last =>
        { last with compound := last.compound ++ [.className text] }
      tally := tally
      scope := scope
      pristine := false } := by
  have hoptions : Chain.lastOptions (chain ++ [⟨.option, name⟩]) =
      chain.lastOptions ++ [⟨.option, name⟩] := by
    rw [Chain.lastOptions_concat]
    rfl
  refine ⟨?_, fun _ => hbase, ?_, fun _ => ?_, ?_⟩
  · rw [Chain.base?_concat]
    exact hdraft.base
  · intro base hmem
    obtain ⟨front, compound, hlinks, hcompound⟩ := hdraft.last base hmem
    refine ⟨front, compound ++ [.className text], by simp [hlinks], ?_⟩
    rw [hoptions, List.map_append, ← List.cons_append]
    exact List.rel_append hcompound (isWritten_singleton htext)
  · simp [hoptions]
  · simp [Chain.elements_concat, hdraft.length, Kind.isBlock]

theorem Conforms.sibling (hdraft : Conforms symbols chain draft) {link : Link}
    (hlast : draft.links.getLast? = some link) (tally : Tally) :
    Conforms symbols (chain ++ [⟨.sibling, name⟩]) { draft with
      links := draft.links.push .adjacent link.compound
      tally := tally } := by
  have hbase : draft.base.isSome = true := hdraft.named (by rintro h; simp [h] at hlast)
  have hoptions : Chain.lastOptions (chain ++ [⟨.sibling, name⟩]) = chain.lastOptions := by
    rw [Chain.lastOptions_concat]
    rfl
  refine ⟨?_, fun _ => hbase, ?_, fun h => ?_, ?_⟩
  · rw [Chain.base?_concat]
    exact hdraft.base
  · intro base hmem
    obtain ⟨front, compound, hlinks, hcompound⟩ := hdraft.last base hmem
    rw [hlinks, List.getLast?_concat] at hlast
    cases hlast
    exact ⟨_, compound, rfl, by rwa [hoptions]⟩
  · rw [hoptions]
    exact hdraft.pristine h
  · refine (length_push _ _ _).trans ?_
    simp [Chain.elements_concat, hdraft.length, Kind.isBlock]

/-- Every declaration but a fragment keeps a draft to its chain. -/
theorem Passes.conforms (h : Passes symbols draft kind name next) (hraw : kind ≠ .raw)
    (hdraft : Conforms symbols chain draft) :
    Conforms symbols (chain ++ [⟨kind, name⟩]) next := by
  cases h with
  | component htext => exact hdraft.block ⟨.component, name⟩ rfl htext _
  | tweak htext => exact hdraft.block ⟨.tweak, name⟩ rfl htext _
  | location htext => exact hdraft.block ⟨.location, name⟩ rfl htext _
  | replace hbase hpristine htext => exact hdraft.replace hbase hpristine htext
  | part hbase hpristine htext => exact hdraft.part hbase hpristine htext
  | option hbase htext => exact hdraft.option hbase htext _ _
  | sibling hlast => exact hdraft.sibling hlast _
  | nest => exact absurd rfl hraw
  | glue => exact absurd rfl hraw

/-- Every declaration but a fragment keeps to the last compound or appends to it. -/
theorem Passes.grows (h : Passes symbols draft kind name next) (hraw : kind ≠ .raw)
    {front : Selector} {compound : Compound}
    (hlinks : draft.links = front ++ [⟨compound, .none⟩]) :
    Selector.Grows kind draft.links next.links := by
  obtain ⟨links, _, _, _, _, _⟩ := draft
  obtain rfl : links = front ++ [⟨compound, .none⟩] := hlinks
  cases h with
  | component => exact Selector.grows_push rfl
  | tweak => exact Selector.grows_push rfl
  | location => exact Selector.grows_push rfl
  | part => exact Selector.grows_push rfl
  | replace => exact Selector.grows_mapLast (fun _ => [.className _]) (.inl rfl)
  | @option _ text =>
      exact Selector.grows_mapLast (fun compound => compound ++ [.className text]) (.inr rfl)
  | sibling hlast =>
      rw [List.getLast?_concat] at hlast
      cases hlast
      exact Selector.grows_copy
  | nest => exact absurd rfl hraw
  | glue => exact absurd rfl hraw

/-! ## Whole chains -/

def steps (path : List Declaration) (names : List Text) : Chain :=
  List.zipWith (fun outer name => ⟨outer.kind, name⟩) path names

/-- A draft is what the chain of what it has passed says. -/
theorem Reaches.conforms {path : List Declaration} {names : List Text}
    (h : Reaches symbols draft path names last)
    (hraw : ∀ outer ∈ path, outer.kind ≠ .raw) (hdraft : Conforms symbols chain draft) :
    Conforms symbols (chain ++ steps path names) last := by
  induction h generalizing chain with
  | refl =>
      rw [steps, List.zipWith_nil_left, List.append_nil]
      exact hdraft
  | step hpasses _ ih =>
      obtain ⟨houter, hinner⟩ := List.forall_mem_cons.mp hraw
      have hnext := ih hinner (hpasses.conforms houter hdraft)
      rwa [List.append_assoc] at hnext

/-- There is a last element, with the name that the chain gives it. -/
theorem Reaches.exists_last {path : List Declaration} {names : List Text}
    (h : Reaches symbols .empty path names last) (hpath : path ≠ [])
    (hraw : ∀ outer ∈ path, outer.kind ≠ .raw) :
    ∃ base front compound, (steps path names).base? symbols = some base ∧
      last.links = front ++ [⟨compound, .none⟩] ∧
      IsWritten (base :: (steps path names).lastOptions.map symbols.mark) compound := by
  have hconforms : Conforms symbols (steps path names) last :=
    h.conforms hraw conforms_empty
  obtain ⟨base, hbase⟩ := Option.isSome_iff_exists.mp
    (hconforms.named (h.links_ne_nil_iff.mpr hpath))
  obtain ⟨front, compound, hlinks, hcompound⟩ := hconforms.last base hbase
  exact ⟨base, front, compound, hconforms.base ▸ hbase, hlinks, hcompound⟩

end Draft

namespace Place

def steps (place : Place) (names : List Text) : Chain :=
  Draft.steps place.path names

structure IsConventional (table : SymbolTable) (place : Place) (names : List Text)
    (named : NamedSelector) : Prop where
  /-- The last compound holds the class of the current name and, in order, those of
  the options on it. -/
  last : ∃ base front compound, (place.steps names).base? table.current = some base ∧
    place.core named.selector = front ++ [⟨compound, .none⟩] ∧
    Compound.IsWritten
      (base :: (place.steps names).lastOptions.map table.current.mark) compound
  length : (place.core named.selector).length = (place.steps names).elements
  /-- It continues the selector of the chain without its last declaration. -/
  growth : ∀ upper : Place, place.above = upper.path →
    ∃ shorter, (upper.chain names.dropLast).leaves table = .ok [shorter] ∧
      Selector.Grows place.node.kind (upper.core shorter.selector)
        (place.core named.selector)

variable {table : SymbolTable} {place : Place} {names : List Text}
  {named : NamedSelector}

theorem path_ne_nil (place : Place) : place.path ≠ [] := by
  simp [path]

/-- Without fragments on the way, what a place yields follows the convention. -/
theorem Yields.isConventional (hnames : names ∈ place.namings)
    (h : place.Yields table.current names named) (hraw : place.crosses .raw = false) :
    place.IsConventional table names named := by
  have hkinds := crosses_eq_false_iff.mp hraw
  obtain ⟨draft, hreaches, _⟩ := id h
  have hcore := h.core_eq hreaches
  refine ⟨?_, ?_, fun upper hupper => ?_⟩
  · rw [hcore]
    exact hreaches.exists_last place.path_ne_nil hkinds
  · rw [hcore]
    exact (hreaches.conforms hkinds Draft.conforms_empty).length
  · -- The last name is applied to what the chain above has built.
    obtain ⟨shorter, hleaves, hyields⟩ := Declaration.exists_leaves_above hnames h hupper
    obtain ⟨name, before, next, _, hbefore, hpasses, hnext⟩ := h.exists_passes
    rw [hupper] at hbefore
    obtain ⟨_, front, compound, _, hlinks, _⟩ :=
      hbefore.exists_last upper.path_ne_nil fun outer houter =>
        hkinds outer (List.mem_append_left _ (hupper ▸ houter))
    refine ⟨shorter, hleaves, ?_⟩
    rw [hyields.core_eq hbefore, hnext]
    exact hpasses.grows (hkinds place.node (by simp [path])) hlinks

end Place

namespace Declaration

/-- The selectors of every rule, and of every leaf, follow the naming convention if no
fragment is on the way to their node. -/
theorem isConventional_named (table : SymbolTable) (declaration : Declaration) :
    EachNamed table declaration fun place names named =>
      place.crosses .raw = false → place.IsConventional table names named :=
  eachNamed_of_yields fun _ _ _ hnames hyields => hyields.isConventional hnames

/-- A part behind an option is a further element, a copy keeps its name, and a part of
the copy continues it. -/
theorem isConventional_named_copy :
    ∃ block option part copy inner named,
      block = ⟨.component, [['a']], none, [option]⟩ ∧
      option = ⟨.option, [['o']], none, [part]⟩ ∧
      part = ⟨.part, [['p']], none, [copy]⟩ ∧
      copy = ⟨.sibling, [], none, [inner]⟩ ∧
      inner = ⟨.part, [['q']], some [], []⟩ ∧
      Declaration.rules .initial block = .ok [⟨[named], []⟩] ∧
      named.text = "html .a.\\--o .a\\.p + .a\\.p\\.q".toList ∧
      Place.crosses ⟨[block, option, part, copy], inner⟩ .raw = false ∧
      Place.IsConventional .initial ⟨[block, option, part, copy], inner⟩
        [['a'], ['o'], ['p'], [], ['q']] named := by
  have hrules : Declaration.rules .initial ⟨.component, [['a']], none,
      [⟨.option, [['o']], none, [⟨.part, [['p']], none,
        [⟨.sibling, [], none, [⟨.part, [['q']], some [], []⟩]⟩]⟩]⟩]⟩ =
      .ok [⟨[⟨[⟨[.element boostElement], .descendant⟩,
        ⟨[.className ['a'], .className "\\--o".toList], .descendant⟩,
        ⟨[.className "a\\.p".toList], .adjacent⟩,
        ⟨[.className "a\\.p\\.q".toList], .none⟩], ⟨0, 4, 1⟩, []⟩], []⟩] := by
    decide +kernel
  have hall := (isConventional_named _ _).1 _ hrules
  obtain ⟨hnamed, _⟩ := List.forall₂_cons.mp hall
  exact ⟨_, _, _, _, _, _, rfl, rfl, rfl, rfl, rfl, hrules, by decide +kernel,
    by decide +kernel, (List.forall₂_cons.mp hnamed).1 (by decide +kernel)⟩

end Declaration

end Cascade
