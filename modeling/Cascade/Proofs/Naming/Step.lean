import Cascade.Proofs.Naming.Fragment

/-!
# What one name makes of a draft

`Passes` lists everything that can happen to a draft when one name of a
declaration is applied to it, with what has to be true beforehand, and
`apply_eq_ok_iff` says that nothing else can.  The relation does not look at the
trail, so the trail decides nothing: it is only reported.  The scope changes in
three ways, one for each kind that has an effect on the whole selector.
-/

namespace Cascade

def Scope.pass (scope : Scope) : Kind → Scope
  | .tweak => { scope with rooted := true }
  | .option => { scope with boosted := true }
  | .raw => { scope with raw := true }
  | _ => scope

namespace Draft

def withTrail (draft : Draft) (trail : List Text) : Draft :=
  { draft with trail := trail }

/-- A draft whose last class is lengthened, if there is something to lengthen
it by. -/
inductive Lengthens (draft : Draft) : Option Text → Draft → Prop
  | none : Lengthens draft .none draft
  | some {front : Selector} {conditions : Compound} {name suffix : Text}
      {combinator : Combinator} :
      draft.links = front ++ [⟨conditions ++ [.className name], combinator⟩] →
      Lengthens draft (.some suffix) { draft with
        links := front ++
          [⟨conditions ++ [.className (name ++ suffix)], combinator⟩] }

/-- Whether links can stand behind the first compound of a fragment. -/
def CanFollow (rest : Selector) : Prop :=
  ∀ link ∈ rest, Compound.hasParent link.compound = false ∧
    Compound.hasMisplacedElement link.compound = false

/-- What a draft can become when one name of a declaration is applied to it. -/
inductive Passes (symbols : Symbols) (draft : Draft) :
    Kind → Text → Draft → Prop
  | component {name text : Text} : escaped (symbols.component ++ name) = .ok text →
      Passes symbols draft .component name
        ((draft.pushClass text).settle (symbols.component ++ name))
  | tweak {name text : Text} : escaped (symbols.tweak ++ name) = .ok text →
      Passes symbols draft .tweak name
        (({ draft with scope := draft.scope.pass .tweak }.pushClass text).settle
          (symbols.tweak ++ name))
  | location {name text : Text} : escaped (symbols.location ++ name) = .ok text →
      Passes symbols draft .location name
        ((draft.pushClass text).settle (symbols.location ++ name))
  /-- A part in the place of its block, whose class still stands alone. -/
  | replace {base name text : Text} : draft.base = some base →
      draft.pristine = true →
      escaped (base ++ symbols.part ++ name) = .ok text →
      Passes symbols draft .part name
        ({ draft with
          links := draft.links.mapLast fun last =>
            { last with compound := [.className text] } }.settle
          (base ++ symbols.part ++ name))
  /-- A part below its block, to which something has been added. -/
  | part {base name text : Text} : draft.base = some base →
      draft.pristine = false →
      escaped (base ++ symbols.part ++ name) = .ok text →
      Passes symbols draft .part name
        ((draft.pushClass text).settle (base ++ symbols.part ++ name))
  | option {name text : Text} : draft.base.isSome = true →
      escaped (symbols.option ++ name) = .ok text →
      Passes symbols draft .option name { draft with
        links := draft.links.mapLast fun last =>
          { last with compound := last.compound ++ [.className text] }
        tally := draft.tally.addClass
        scope := draft.scope.pass .option
        pristine := false }
  | sibling {name : Text} {last : Link} : draft.links.getLast? = some last →
      Passes symbols draft .sibling name { draft with
        links := draft.links.push .adjacent last.compound
        tally := draft.tally.countCompound last.compound }
  /-- A fragment below the current element. -/
  | nest {fragment : Text} {first : Link} {rest : Selector} :
      Selector.ofText fragment = .ok (first :: rest) → CanFollow rest →
      Compound.hasParent first.compound = false →
      Compound.hasMisplacedElement first.compound = false →
      Passes symbols draft .raw fragment ({ draft with
        links := (draft.links.push .descendant first.compound).mapLast fun last =>
          { last with combinator := first.combinator }
        tally := draft.tally.countCompound first.compound }.appendLinks rest)
  /-- A fragment that continues the current element. -/
  | glue {fragment : Text} {behind conditions : Compound}
      {combinator : Combinator} {suffix : Option Text} {rest : Selector}
      {extended : Draft} :
      Selector.ofText fragment = .ok (⟨.parent :: behind, combinator⟩ :: rest) →
      CanFollow rest → draft.links ≠ [] → Compound.hasParent behind = false →
      splitSuffix behind = (suffix, conditions) →
      Lengthens draft suffix extended → conditions.any Simple.isElement = false →
      Passes symbols draft .raw fragment
        ((extended.appendConditions conditions combinator).appendLinks rest)

variable {symbols : Symbols} {draft next extended joined : Draft}

theorem extendClass_eq_ok_iff {suffix : Text} :
    draft.extendClass suffix = .ok extended ↔
      Lengthens draft (some suffix) extended := by
  constructor
  · intro h
    unfold extendClass at h
    split at h
    · rename_i name hlast
      obtain ⟨⟨compound, combinator⟩, hlinks, hcompound⟩ :=
        Option.bind_eq_some_iff.mp hlast
      obtain ⟨front, hfront⟩ := List.getLast?_eq_some_iff.mp hlinks
      obtain ⟨conditions, rfl⟩ := List.getLast?_eq_some_iff.mp hcompound
      cases h
      rw [hfront, Selector.mapLast_concat, List.dropLast_concat]
      exact .some hfront
    · cases h
  · rintro (_ | hlinks)
    unfold extendClass
    rw [hlinks]
    simp

theorem suffix_elim_eq_ok_iff {suffix : Option Text} :
    suffix.elim (.ok draft) draft.extendClass = .ok extended ↔
      Lengthens draft suffix extended := by
  cases suffix with
  | none =>
      constructor
      · rintro ⟨⟩
        exact .none
      · rintro ⟨⟩
        rfl
  | some suffix => exact extendClass_eq_ok_iff

theorem glue_eq_ok_iff {first : Link} :
    draft.glue first = .ok joined ↔
      draft.links ≠ [] ∧ ∃ behind conditions suffix extended,
        first.compound = .parent :: behind ∧
        Compound.hasParent behind = false ∧
        splitSuffix behind = (suffix, conditions) ∧
        Lengthens draft suffix extended ∧
        conditions.any Simple.isElement = false ∧
        extended.appendConditions conditions first.combinator = joined := by
  constructor
  · intro h
    unfold glue at h
    split at h
    · cases h
    · rename_i hlinks
      split at h
      · rename_i behind hcompound
        split at h
        · cases h
        · rename_i hparent
          cases hsplit : splitSuffix behind with
          | mk suffix conditions =>
              simp only [hsplit] at h
              split at h
              · cases h
              · rename_i extended hextend
                split at h
                · cases h
                · rename_i helements
                  cases h
                  exact ⟨by simpa using hlinks, behind, conditions, suffix,
                    extended, hcompound, by simpa using hparent, hsplit,
                    suffix_elim_eq_ok_iff.mp hextend, by simpa using helements,
                    rfl⟩
      · cases h
  · rintro ⟨hlinks, behind, conditions, suffix, extended, hcompound, hparent,
      hsplit, hextend, helements, rfl⟩
    unfold glue
    rw [if_neg (by simpa using hlinks)]
    simp only [hcompound, hparent, hsplit, Bool.false_eq_true, if_false,
      suffix_elim_eq_ok_iff.mpr hextend, helements]

theorem nest_eq_ok_iff {first : Link} :
    draft.nest first = .ok joined ↔
      Compound.hasMisplacedElement first.compound = false ∧
        joined = { draft with
          links := (draft.links.push .descendant first.compound).mapLast
            fun last => { last with combinator := first.combinator }
          tally := draft.tally.countCompound first.compound } := by
  unfold nest
  cases Compound.hasMisplacedElement first.compound <;> simp [eq_comm]

theorem canFollow_iff {rest : Selector} :
    CanFollow rest ↔
      (rest.any fun link => Compound.hasParent link.compound) = false ∧
        (rest.any fun link => Compound.hasMisplacedElement link.compound) =
          false := by
  simp only [CanFollow, List.any_eq_false, Bool.not_eq_true]
  exact ⟨fun h => ⟨fun link hlink => (h link hlink).1,
    fun link hlink => (h link hlink).2⟩,
    fun h link hlink => ⟨h.1 link hlink, h.2 link hlink⟩⟩

theorem addSelector_eq_ok_iff {first : Link} {rest : Selector} :
    draft.addSelector (first :: rest) = .ok next ↔
      CanFollow rest ∧ ∃ joined, joined.appendLinks rest = next ∧
        (if Compound.hasParent first.compound then draft.glue first
          else draft.nest first) = .ok joined := by
  rw [addSelector, canFollow_iff]
  constructor
  · intro h
    split at h
    · cases h
    · rename_i hparent
      split at h
      · cases h
      · rename_i helement
        obtain ⟨joined, hjoined, rfl⟩ := exists_of_map_eq_ok h
        exact ⟨⟨by simpa using hparent, by simpa using helement⟩, joined, rfl,
          hjoined⟩
  · rintro ⟨⟨hparent, helement⟩, joined, rfl, hjoined⟩
    rw [hparent, helement, hjoined]
    rfl

theorem hasParent_cons_parent (behind : Compound) :
    Compound.hasParent (.parent :: behind) = true := rfl

/-- A fragment is nested or glued. -/
theorem addFragment_eq_ok_iff {fragment : Text} :
    draft.addFragment fragment = .ok next ↔
      Passes symbols draft .raw fragment next := by
  constructor
  · intro h
    unfold addFragment at h
    split at h
    · rename_i selector hselector
      cases selector with
      | nil => exact absurd rfl (Selector.spells_of_ofText hselector).ne_nil
      | cons first rest =>
          obtain ⟨hrest, joined, rfl, hjoined⟩ := addSelector_eq_ok_iff.mp h
          cases hparent : Compound.hasParent first.compound with
          | true =>
              rw [hparent, if_pos rfl] at hjoined
              obtain ⟨hlinks, behind, conditions, suffix, extended, hcompound,
                hbehind, hsplit, hextend, helements, rfl⟩ :=
                glue_eq_ok_iff.mp hjoined
              obtain ⟨compound, combinator⟩ := first
              obtain rfl : compound = .parent :: behind := hcompound
              exact .glue hselector hrest hlinks hbehind hsplit hextend helements
          | false =>
              rw [hparent, if_neg Bool.false_ne_true] at hjoined
              obtain ⟨helement, rfl⟩ := nest_eq_ok_iff.mp hjoined
              exact .nest hselector hrest hparent helement
    · cases h
  · intro h
    unfold addFragment
    cases h with
    | nest hselector hrest hparent helement =>
        rw [hselector]
        refine addSelector_eq_ok_iff.mpr ⟨hrest, _, rfl, ?_⟩
        rw [hparent, if_neg Bool.false_ne_true]
        exact nest_eq_ok_iff.mpr ⟨helement, rfl⟩
    | glue hselector hrest hlinks hbehind hsplit hextend helements =>
        rw [hselector]
        refine addSelector_eq_ok_iff.mpr ⟨hrest, _, rfl, ?_⟩
        rw [hasParent_cons_parent, if_pos rfl]
        exact glue_eq_ok_iff.mpr ⟨hlinks, _, _, _, _, rfl, hbehind, hsplit,
          hextend, helements, rfl⟩

theorem openBlock_eq_ok_iff {name : Text} :
    draft.openBlock name = .ok next ↔
      ∃ text, escaped name = .ok text ∧
        (draft.pushClass text).settle name = next := by
  unfold openBlock
  cases escaped name <;> simp [Except.map]

theorem openPart_eq_ok_iff {name : Text} :
    draft.openPart symbols.part name = .ok next ↔
      Passes symbols draft .part name next := by
  unfold openPart
  constructor
  · intro h
    split at h
    · cases h
    · rename_i base hbase
      obtain ⟨text, htext, rfl⟩ := exists_of_map_eq_ok h
      cases hpristine : draft.pristine with
      | true => exact .replace hbase hpristine htext
      | false => exact .part hbase hpristine htext
  · intro h
    cases h with
    | replace hbase hpristine htext =>
        simp only [hbase, htext, hpristine]
        rfl
    | part hbase hpristine htext =>
        simp only [hbase, htext, hpristine]
        rfl

theorem addOption_eq_ok_iff {name : Text} :
    draft.addOption (symbols.option ++ name) = .ok next ↔
      Passes symbols draft .option name next := by
  unfold addOption
  constructor
  · intro h
    split at h
    · cases h
    · rename_i hbase
      obtain ⟨text, htext, rfl⟩ := exists_of_map_eq_ok h
      exact .option (by simpa [Option.isSome_iff_ne_none] using hbase) htext
  · rintro (_ | _)
    rename_i hbase htext
    rw [if_neg (by simpa [Option.isSome_iff_ne_none] using hbase), htext]
    rfl

theorem repeatLast_eq_ok_iff {name : Text} :
    draft.repeatLast = .ok next ↔ Passes symbols draft .sibling name next := by
  unfold repeatLast
  constructor
  · intro h
    split at h
    · cases h
    · rename_i last hlast
      cases h
      exact .sibling hlast
  · rintro ⟨⟩
    rename_i last hlast
    rw [hlast]

/-- One name of a declaration makes of a draft exactly what `Passes` says. -/
theorem apply_eq_ok_iff {kind : Kind} {name : Text} :
    draft.apply symbols kind name = .ok next ↔
      Passes symbols draft kind name next := by
  cases kind with
  | component =>
      refine openBlock_eq_ok_iff.trans ⟨?_, ?_⟩
      · rintro ⟨text, htext, rfl⟩
        exact .component htext
      · intro h
        cases h with
        | component htext => exact ⟨_, htext, rfl⟩
  | tweak =>
      refine openBlock_eq_ok_iff.trans ⟨?_, ?_⟩
      · rintro ⟨text, htext, rfl⟩
        exact .tweak htext
      · intro h
        cases h with
        | tweak htext => exact ⟨_, htext, rfl⟩
  | location =>
      refine openBlock_eq_ok_iff.trans ⟨?_, ?_⟩
      · rintro ⟨text, htext, rfl⟩
        exact .location htext
      · intro h
        cases h with
        | location htext => exact ⟨_, htext, rfl⟩
  | part => exact openPart_eq_ok_iff
  | option => exact addOption_eq_ok_iff
  | raw => exact addFragment_eq_ok_iff
  | sibling => exact repeatLast_eq_ok_iff

/-! ## Trail and scope -/

theorem Lengthens.withTrail {suffix : Option Text}
    (h : Lengthens draft suffix extended) (trail : List Text) :
    Lengthens (draft.withTrail trail) suffix (extended.withTrail trail) := by
  cases h with
  | none => exact .none
  | some hlinks => exact @Lengthens.some (draft.withTrail trail) _ _ _ _ _ hlinks

/-- Under another trail the same happens to a draft. -/
theorem Passes.withTrail {kind : Kind} {name : Text}
    (h : Passes symbols draft kind name next) (trail : List Text) :
    Passes symbols (draft.withTrail trail) kind name (next.withTrail trail) := by
  cases h with
  | component htext => exact .component htext
  | tweak htext => exact @Passes.tweak _ (draft.withTrail trail) _ _ htext
  | location htext => exact .location htext
  | replace hbase hpristine htext => exact .replace hbase hpristine htext
  | part hbase hpristine htext => exact .part hbase hpristine htext
  | option hbase htext =>
      exact @Passes.option _ (draft.withTrail trail) _ _ hbase htext
  | sibling hlast => exact @Passes.sibling _ (draft.withTrail trail) _ _ hlast
  | nest hselector hrest hparent helement =>
      exact @Passes.nest _ (draft.withTrail trail) _ _ _ hselector hrest hparent
        helement
  | glue hselector hrest hlinks hbehind hsplit hextend helements =>
      exact @Passes.glue _ (draft.withTrail trail) _ _ _ _ _ _ _ hselector hrest
        hlinks hbehind hsplit (hextend.withTrail trail) helements

theorem Lengthens.scope_eq {suffix : Option Text}
    (h : Lengthens draft suffix extended) : extended.scope = draft.scope := by
  cases h <;> rfl

/-- The scope is changed by the kind of a declaration, whatever the name. -/
theorem Passes.scope_eq {kind : Kind} {name : Text}
    (h : Passes symbols draft kind name next) :
    next.scope = draft.scope.pass kind := by
  cases h with
  | glue _ _ _ _ _ hextend _ =>
      rw [Scope.pass, ← hextend.scope_eq]
      rfl
  | _ => rfl

end Draft

end Cascade
