import Cascade.Proofs.Naming.Scope

/-!
# Which trees have rules

Without fragments a tree has rules exactly if each of its nodes has names that can
be written under its symbol, parts and options stand inside of a block, the root
repeats nothing, and the id of the root can be written if a tweak needs it.  One
name is refused for one of three reasons, and what these depend on, the base and
whether there is an element, follows from the kinds on the way: a base that is set
once is never lost.
-/

namespace Cascade

/-! ## Names that can be written -/

namespace Ident

def IsEscapable (name : Text) : Prop :=
  name ≠ [] ∧ name.all isWritable = true

instance (name : Text) : Decidable (IsEscapable name) :=
  inferInstanceAs (Decidable (_ ∧ _))

theorem exists_escape?_iff {name : Text} :
    (∃ text, escape? name = some text) ↔ IsEscapable name := by
  cases name with
  | nil => simp [escape?, IsEscapable]
  | cons first rest =>
      simp only [escape?, IsEscapable]
      split <;> simp_all

/-- A name that can be written takes on whatever can be written. -/
theorem isEscapable_append_iff {name rest : Text} (h : IsEscapable name) :
    IsEscapable (name ++ rest) ↔ rest.all isWritable = true := by
  rw [IsEscapable, List.all_append, h.2, Bool.true_and]
  exact and_iff_right (List.append_ne_nil_of_left_ne_nil h.1 _)

end Ident

theorem exists_escaped_iff {name : Text} :
    (∃ text, escaped name = .ok text) ↔ Ident.IsEscapable name := by
  rw [← Ident.exists_escape?_iff, escaped]
  cases Ident.escape? name <;> simp

/-- A kind that starts a new element, of which parts take their names. -/
def Kind.isBlock : Kind → Bool
  | .component | .tweak | .location => true
  | _ => false

/-- Whether a name can be written under the symbol of its kind.  A part only
lengthens a name. -/
def Symbols.Writes (symbols : Symbols) (name : Text) : Kind → Prop
  | .component => Ident.IsEscapable (symbols.component ++ name)
  | .tweak => Ident.IsEscapable (symbols.tweak ++ name)
  | .location => Ident.IsEscapable (symbols.location ++ name)
  | .option => Ident.IsEscapable (symbols.option ++ name)
  | .part => (symbols.part ++ name).all Ident.isWritable = true
  | .raw | .sibling => True

instance (symbols : Symbols) (name : Text) :
    (kind : Kind) → Decidable (symbols.Writes name kind)
  | .component | .tweak | .location | .option =>
      inferInstanceAs (Decidable (Ident.IsEscapable _))
  | .part => inferInstanceAs (Decidable (_ = true))
  | .raw | .sibling => inferInstanceAs (Decidable True)

/-! ## One name -/

namespace Draft

variable {symbols : Symbols} {draft next last : Draft} {kind : Kind} {name : Text}
  {path : List Declaration} {names : List Text}

/-- A base can be written: it is the name of a class. -/
def HasEscapableBase (draft : Draft) : Prop :=
  ∀ base ∈ draft.base, Ident.IsEscapable base

theorem Lengthens.base_eq {suffix : Option Text}
    (h : Lengthens draft suffix next) : next.base = draft.base := by
  cases h <;> rfl

/-- Blocks set a base, and nothing takes it away. -/
theorem Passes.isSome_base (h : Passes symbols draft kind name next) :
    next.base.isSome = (draft.base.isSome || kind.isBlock) := by
  cases h with
  | component => exact (Bool.or_true _).symm
  | tweak => exact (Bool.or_true _).symm
  | location => exact (Bool.or_true _).symm
  | replace hbase => rw [hbase]; rfl
  | part hbase => rw [hbase]; rfl
  | option => exact (Bool.or_false _).symm
  | sibling => exact (Bool.or_false _).symm
  | nest => exact (Bool.or_false _).symm
  | glue _ _ _ _ _ hextend _ =>
      exact (congrArg Option.isSome hextend.base_eq).trans (Bool.or_false _).symm

theorem Passes.hasEscapableBase (h : Passes symbols draft kind name next)
    (hdraft : draft.HasEscapableBase) : next.HasEscapableBase := by
  have hsettle {draft : Draft} {full text : Text} (htext : escaped full = .ok text) :
      (draft.settle full).HasEscapableBase := by
    rintro _ ⟨⟩
    exact exists_escaped_iff.mp ⟨text, htext⟩
  cases h with
  | component htext => exact hsettle htext
  | tweak htext => exact hsettle htext
  | location htext => exact hsettle htext
  | replace _ _ htext => exact hsettle htext
  | part _ _ htext => exact hsettle htext
  | option => exact hdraft
  | sibling => exact hdraft
  | nest => exact hdraft
  | glue _ _ _ _ _ hextend _ =>
      intro base hbase
      exact hdraft base (hextend.base_eq ▸ hbase)

/-- A part needs a base, and then nothing but characters that can be written. -/
theorem exists_passes_part_iff (hdraft : draft.HasEscapableBase) :
    (∃ next, Passes symbols draft .part name next) ↔
      draft.base.isSome = true ∧ symbols.Writes name .part := by
  constructor
  · have hwrites {base text : Text} (hbase : draft.base = some base)
        (htext : escaped (base ++ symbols.part ++ name) = .ok text) :
        draft.base.isSome = true ∧ symbols.Writes name .part := by
      rw [List.append_assoc] at htext
      exact ⟨Option.isSome_of_mem hbase, (Ident.isEscapable_append_iff
        (hdraft base hbase)).mp (exists_escaped_iff.mp ⟨text, htext⟩)⟩
    rintro ⟨next, h⟩
    cases h with
    | replace hbase _ htext => exact hwrites hbase htext
    | part hbase _ htext => exact hwrites hbase htext
  · rintro ⟨hsome, hwrites⟩
    obtain ⟨base, hbase⟩ := Option.isSome_iff_exists.mp hsome
    obtain ⟨text, htext⟩ := exists_escaped_iff.mpr
      ((Ident.isEscapable_append_iff (hdraft base hbase)).mpr hwrites)
    rw [← List.append_assoc] at htext
    cases hpristine : draft.pristine with
    | true => exact ⟨_, .replace hbase hpristine htext⟩
    | false => exact ⟨_, .part hbase hpristine htext⟩

theorem exists_openBlock_iff {full : Text} :
    (∃ next, draft.openBlock full = .ok next) ↔ Ident.IsEscapable full := by
  rw [← exists_escaped_iff, openBlock, exists_map_eq_ok_iff]

/-- One name that is no fragment can be applied unless it cannot be written, a part
or an option has no block, or a sibling has nothing to repeat. -/
theorem exists_passes_iff (hdraft : draft.HasEscapableBase) (hraw : kind ≠ .raw) :
    (∃ next, Passes symbols draft kind name next) ↔
      (kind = .part ∨ kind = .option → draft.base.isSome = true) ∧
        (kind = .sibling → draft.links ≠ []) ∧ symbols.Writes name kind := by
  cases kind with
  | raw => exact absurd rfl hraw
  | component | tweak | location =>
      simpa [← apply_eq_ok_iff, apply, Symbols.Writes] using exists_openBlock_iff
  | part => simpa using exists_passes_part_iff hdraft
  | option =>
      simp only [reduceCtorEq, or_true, forall_const, false_imp_iff, true_and,
        Symbols.Writes, ← exists_escaped_iff]
      constructor
      · rintro ⟨next, h⟩
        cases h with
        | option hbase htext => exact ⟨hbase, _, htext⟩
      · rintro ⟨hbase, text, htext⟩
        exact ⟨_, .option hbase htext⟩
  | sibling =>
      simp only [reduceCtorEq, or_self, false_imp_iff, true_and, forall_const,
        Symbols.Writes, and_true]
      constructor
      · rintro ⟨next, h⟩ hnil
        cases h with
        | sibling hlast => simp [hnil] at hlast
      · intro hlinks
        exact ⟨_, .sibling (List.getLast?_eq_some_getLast hlinks)⟩

/-! ## The whole way -/

theorem Reaches.isSome_base (h : Reaches symbols draft path names last) :
    last.base.isSome =
      (draft.base.isSome || path.any fun outer => outer.kind.isBlock) := by
  induction h with
  | refl => exact (Bool.or_false _).symm
  | step hpasses _ ih => rw [ih, hpasses.isSome_base, List.any_cons, Bool.or_assoc]

theorem Reaches.hasEscapableBase (h : Reaches symbols .empty path names last) :
    last.HasEscapableBase :=
  h.preserves HasEscapableBase nofun fun _ _ _ _ _ _ hdraft hpasses =>
    hpasses.hasEscapableBase hdraft

/-- Every declaration, whatever its kind, leaves an element behind. -/
theorem Reaches.links_ne_nil_iff (h : Reaches symbols .empty path names last) :
    last.links ≠ [] ↔ path ≠ [] := by
  rcases List.eq_nil_or_concat path with rfl | ⟨above, node, rfl⟩
  · cases h
    exact iff_of_false (· rfl) (· rfl)
  · rw [List.concat_eq_append] at h ⊢
    exact iff_of_true
      (h.built (fun _ hplain => hplain.isSpelled) fun _ _ => Iff.rfl).2 (by simp)

end Draft

/-! ## Trees -/

/-- What it takes to apply a name at a place that some draft has come to. -/
structure Place.Takes (symbols : Symbols) (place : Place) (name : Text) : Prop where
  enclosed : place.node.kind = .part ∨ place.node.kind = .option →
    ∃ outer ∈ place.above, outer.kind.isBlock = true
  preceded : place.node.kind = .sibling → place.above ≠ []
  written : symbols.Writes name place.node.kind

/-- What a node without a fragment needs, apart from something to repeat. -/
structure Place.IsAdmitted (symbols : Symbols) (place : Place) : Prop where
  named : place.node.kind ≠ .sibling → place.node.names ≠ []
  enclosed : place.node.kind = .part ∨ place.node.kind = .option →
    ∃ outer ∈ place.above, outer.kind.isBlock = true
  written : ∀ name ∈ place.node.names, symbols.Writes name place.node.kind

instance (symbols : Symbols) (place : Place) : Decidable (place.IsAdmitted symbols) :=
  decidable_of_iff _ ⟨fun ⟨named, enclosed, written⟩ => ⟨named, enclosed, written⟩,
    fun h => And.intro h.named (And.intro h.enclosed h.written)⟩

namespace Declaration

open Draft (Reaches Passes)

/-- What a tree without fragments needs to have rules. -/
structure IsAdmitted (symbols : Symbols) (declaration : Declaration) : Prop where
  /-- The root has nothing to repeat. -/
  root : declaration.kind ≠ .sibling
  rootId : .tweak ∈ declaration.kinds → Ident.IsEscapable symbols.rootId
  nodes : ∀ place ∈ places [] declaration, place.IsAdmitted symbols

instance (symbols : Symbols) (declaration : Declaration) :
    Decidable (declaration.IsAdmitted symbols) :=
  decidable_of_iff _ ⟨fun ⟨root, rootId, nodes⟩ => ⟨root, rootId, nodes⟩,
    fun h => And.intro h.root (And.intro h.rootId h.nodes)⟩

mutual

theorem kinds_eq (declaration : Declaration) (above : List Declaration) :
    declaration.kinds = (places above declaration).map fun place => place.node.kind := by
  match declaration with
  | ⟨kind, names, body, children⟩ =>
      rw [kinds, places, List.map_cons, ← allKinds_eq children]

theorem allKinds_eq (declarations : List Declaration) (above : List Declaration) :
    allKinds declarations =
      (allPlaces above declarations).map fun place => place.node.kind := by
  match declarations with
  | [] => rfl
  | declaration :: rest =>
      rw [allKinds, allPlaces, List.map_append, ← kinds_eq declaration above,
        ← allKinds_eq rest above]

end

variable {symbols : Symbols} {declaration node : Declaration}
  {above : List Declaration} {place : Place} {kind : Kind}

theorem mem_kinds_iff : kind ∈ declaration.kinds ↔
    ∃ place ∈ places [] declaration, place.node.kind = kind := by
  rw [kinds_eq declaration [], List.mem_map]

/-- The kinds on the way to a place are kinds of the tree. -/
theorem mem_kinds_of_mem_path (hplace : place ∈ places [] declaration) :
    ∀ node ∈ place.path, node.kind ∈ declaration.kinds :=
  forall_mem_path (fun place hplace => mem_kinds_iff.mpr ⟨place, hplace, rfl⟩) hplace

theorem mem_choices {name : Text} (h : name ∈ declaration.names)
    (hkind : declaration.kind ≠ .sibling) : name ∈ declaration.choices := by
  obtain ⟨kind, names, _, _⟩ := declaration
  cases kind <;> first | exact absurd rfl hkind | exact h

theorem writes_of_mem_choices {name : Text} (h : name ∈ declaration.choices)
    (hwritten : ∀ name ∈ declaration.names, symbols.Writes name declaration.kind) :
    symbols.Writes name declaration.kind := by
  obtain ⟨kind, names, _, _⟩ := declaration
  cases kind <;> first | trivial | exact hwritten name h

/-- From where a draft has come to, it can go on exactly under these conditions. -/
theorem exists_reaches_concat_iff (hraw : place.node.kind ≠ .raw) {front : List Text}
    {middle : Draft} (hfront : Reaches symbols .empty place.above front middle)
    {name : Text} :
    (∃ last, Reaches symbols .empty place.path (front ++ [name]) last) ↔
      place.Takes symbols name := by
  have hbase : middle.base.isSome = true ↔
      ∃ outer ∈ place.above, outer.kind.isBlock = true := by
    rw [hfront.isSome_base, ← List.any_eq_true]
    exact Iff.rfl
  have hpasses : (∃ last, Passes symbols middle place.node.kind name last) ↔
      place.Takes symbols name := by
    rw [Draft.exists_passes_iff hfront.hasEscapableBase hraw, hbase,
      hfront.links_ne_nil_iff]
    exact ⟨fun ⟨enclosed, preceded, written⟩ => ⟨enclosed, preceded, written⟩,
      fun h => ⟨h.enclosed, h.preceded, h.written⟩⟩
  rw [← hpasses]
  simp only [Place.path, Draft.reaches_concat_iff]
  constructor
  · rintro ⟨last, next, hnext, hlast⟩
    obtain rfl := hnext.unique hfront
    exact ⟨last, hlast⟩
  · rintro ⟨last, hlast⟩
    exact ⟨last, middle, hfront, hlast⟩

/-- Every choice of names can go one declaration further if the place there is
admitted. -/
theorem exists_reaches_of_isAdmitted (hplace : place.IsAdmitted symbols)
    (hraw : place.node.kind ≠ .raw) (hpreceded : place.node.kind = .sibling → place.above ≠ [])
    (habove : ∀ names ∈ namings place.above,
      ∃ middle, Reaches symbols .empty place.above names middle) :
    ∀ names ∈ place.namings, ∃ last, Reaches symbols .empty place.path names last := by
  intro names hnames
  rw [Place.namings, Place.path, namings_concat, List.mem_flatMap] at hnames
  obtain ⟨front, hfront, hlast⟩ := hnames
  obtain ⟨name, hname, rfl⟩ := List.mem_map.mp hlast
  obtain ⟨middle, hmiddle⟩ := habove front hfront
  exact (exists_reaches_concat_iff hraw hmiddle).mpr
    ⟨hplace.enclosed, hpreceded, writes_of_mem_choices hname hplace.written⟩

/-- In an admitted tree every choice of names can go the whole way to every
place. -/
theorem IsAdmitted.exists_reaches (h : declaration.IsAdmitted symbols)
    (hraw : .raw ∉ declaration.kinds) (hplace : place ∈ places [] declaration) :
    ∀ names ∈ place.namings, ∃ last, Reaches symbols .empty place.path names last := by
  have hnoRaw : ∀ place ∈ places [] declaration, place.node.kind ≠ .raw :=
    fun place hplace hkind => hraw (mem_kinds_iff.mpr ⟨place, hplace, hkind⟩)
  induction mem_places_iff.mp hplace with
  | refl =>
      refine exists_reaches_of_isAdmitted (h.nodes _ mem_places_self)
        (hnoRaw _ mem_places_self) (fun hkind => absurd hkind h.root) ?_
      intro names hnames
      rw [namings, List.mem_singleton] at hnames
      exact hnames ▸ ⟨_, .refl⟩
  | @tail parent child hparent hchild ih =>
      obtain ⟨above, node⟩ := child
      obtain rfl : above = parent.path := hchild.1
      refine exists_reaches_of_isAdmitted (h.nodes _ hplace) (hnoRaw _ hplace)
        (fun _ => ?_) (ih (mem_places_iff.mpr hparent))
      exact List.append_ne_nil_of_right_ne_nil _ (by simp)

/-- A draft of an admitted tree can be finished. -/
theorem IsAdmitted.exists_finish (h : declaration.IsAdmitted symbols)
    (hplace : place ∈ places [] declaration) {names : List Text} {draft : Draft}
    (hreaches : Reaches symbols .empty place.path names draft) (body : Text) :
    ∃ named, draft.finish symbols.rootId body = .ok named := by
  refine Draft.exists_finish_iff.mpr fun hrooted => ?_
  rw [hreaches.scope_eq] at hrooted
  obtain ⟨outer, houter, hkind⟩ := List.any_eq_true.mp hrooted
  refine exists_escaped_iff.mpr (h.rootId ?_)
  exact of_decide_eq_true hkind ▸ mem_kinds_of_mem_path hplace outer houter

theorem IsAdmitted.isNameable (h : declaration.IsAdmitted symbols)
    (hraw : .raw ∉ declaration.kinds) (hplace : place ∈ places [] declaration) :
    place.IsNameable symbols := by
  refine ⟨choices_ne_nil_iff.mpr (h.nodes place hplace).named, fun _ names hnames => ?_⟩
  obtain ⟨draft, hreaches⟩ := h.exists_reaches hraw hplace names hnames
  obtain ⟨named, hfinish⟩ := h.exists_finish hplace hreaches (place.node.body.getD [])
  exact ⟨named, draft, hreaches, hfinish⟩

/-- Where every place can be named, every choice of names goes to every place and gives a
draft that can be finished, whether or not it is. -/
theorem exists_reaches_of_mem_places
    (h : ∀ place ∈ places [] declaration, place.IsNameable symbols)
    (hplace : place ∈ places [] declaration) {names : List Text}
    (hnames : names ∈ place.namings) :
    ∃ last, Reaches symbols .empty place.path names last ∧
      ∀ body, ∃ named, last.finish symbols.rootId body = .ok named :=
  exists_reaches_of_isNameable (fun lower hlower => h lower (mem_places_trans hplace hlower))
    hnames

theorem choices_ne_nil_of_isNameable
    (h : ∀ place ∈ places [] declaration, place.IsNameable symbols)
    (hplace : place ∈ places [] declaration) :
    ∀ outer ∈ place.path, outer.choices ≠ [] :=
  forall_mem_path (fun place hplace => (h place hplace).1) hplace

/-- So every name can be applied where it stands. -/
theorem takes_of_isNameable (hraw : .raw ∉ declaration.kinds)
    (h : ∀ place ∈ places [] declaration, place.IsNameable symbols)
    (hplace : place ∈ places [] declaration) {name : Text}
    (hname : name ∈ place.node.choices) : place.Takes symbols name := by
  obtain ⟨front, hfront⟩ := exists_mem_namings fun outer houter =>
    choices_ne_nil_of_isNameable h hplace outer (List.mem_append_left _ houter)
  have hnames : front ++ [name] ∈ place.namings :=
    mem_namings_append.mpr ⟨front, hfront, [name], by simpa [namings] using hname, rfl⟩
  obtain ⟨last, hlast, _⟩ := exists_reaches_of_mem_places h hplace hnames
  obtain ⟨middle, hmiddle, _⟩ := Draft.reaches_concat_iff.mp hlast
  have hkind : place.node.kind ≠ .raw :=
    fun hkind => hraw (mem_kinds_iff.mpr ⟨place, hplace, hkind⟩)
  exact (exists_reaches_concat_iff hkind hmiddle).mp ⟨last, hlast⟩

/-- A tweak needs the id of the root wherever it stands, since below it there is a
leaf. -/
theorem isEscapable_rootId_of_isNameable
    (h : ∀ place ∈ places [] declaration, place.IsNameable symbols)
    (htweak : .tweak ∈ declaration.kinds) : Ident.IsEscapable symbols.rootId := by
  obtain ⟨place, hplace, hkind⟩ := mem_kinds_iff.mp htweak
  obtain ⟨names, hnames⟩ := exists_mem_namings (choices_ne_nil_of_isNameable h hplace)
  obtain ⟨last, hlast, hfinish⟩ := exists_reaches_of_mem_places h hplace hnames
  refine exists_escaped_iff.mp (Draft.exists_finish_iff.mp (hfinish []) ?_)
  rw [hlast.scope_eq]
  exact List.any_eq_true.mpr
    ⟨place.node, List.mem_append_right _ (List.mem_singleton_self _), decide_eq_true hkind⟩

theorem isAdmitted_of_isNameable (hraw : .raw ∉ declaration.kinds)
    (h : ∀ place ∈ places [] declaration, place.IsNameable symbols) :
    declaration.IsAdmitted symbols where
  root hkind := by
    obtain ⟨name, hname⟩ := List.exists_mem_of_ne_nil _ (h _ mem_places_self).1
    exact (takes_of_isNameable hraw h mem_places_self hname).preceded hkind rfl
  rootId := isEscapable_rootId_of_isNameable h
  nodes place hplace := by
    have hchoices := (h place hplace).1
    obtain ⟨first, hfirst⟩ := List.exists_mem_of_ne_nil _ hchoices
    refine ⟨choices_ne_nil_iff.mp hchoices, (takes_of_isNameable hraw h hplace hfirst).enclosed,
      fun name hname => ?_⟩
    by_cases hkind : place.node.kind = .sibling
    · rw [hkind]
      trivial
    · exact (takes_of_isNameable hraw h hplace (mem_choices hname hkind)).written

/-- A tree without fragments has rules exactly if it is admitted. -/
theorem exists_rules_iff_isAdmitted (table : SymbolTable) (declaration : Declaration)
    (hraw : .raw ∉ declaration.kinds) :
    (∃ rules, declaration.rules table = .ok rules) ↔
      declaration.IsAdmitted table.current := by
  rw [exists_rules_iff]
  exact ⟨isAdmitted_of_isNameable hraw, fun h _ => h.isNameable hraw⟩

/-- The tweak is never finished itself, and still its tree has no rules under a root
id that cannot be written.  An empty name is no obstacle behind a symbol, nor is it
for a part, whose block comes before an option and a sibling. -/
theorem exists_rules_iff_isAdmitted_rootId :
    ∃ (declaration : Declaration) (table : SymbolTable),
      declaration = ⟨.tweak, [['t']], none, [⟨.option, [['o'], []], none,
        [⟨.sibling, [], none, [⟨.part, [[]], some [], []⟩]⟩]⟩]⟩ ∧
      table = SymbolTable.initial.set .rootId "a b".toList ∧
      .raw ∉ declaration.kinds ∧
      (∃ rules, declaration.rules .initial = .ok rules) ∧
      ¬ ∃ rules, declaration.rules table = .ok rules := by
  have hraw : .raw ∉ kinds ⟨.tweak, [['t']], none, [⟨.option, [['o'], []], none,
      [⟨.sibling, [], none, [⟨.part, [[]], some [], []⟩]⟩]⟩]⟩ := by
    decide
  refine ⟨_, _, rfl, rfl, hraw, ?_, ?_⟩
  · exact (exists_rules_iff_isAdmitted _ _ hraw).mpr (by decide +kernel)
  · rw [exists_rules_iff_isAdmitted _ _ hraw]
    decide +kernel

end Declaration

end Cascade
