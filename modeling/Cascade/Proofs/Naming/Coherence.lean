import Cascade.Proofs.Naming.Step

/-!
# What a step finds and what it leaves

A step changes the last compound of a draft in several places, and where there is none
it would do nothing without a word.  It never comes to that: a base comes with the
compound it was opened on, and a pristine draft ends with a compound that holds the
class of its base and nothing else.  So a part replaces no condition but this class,
and of all other steps only a suffix touches a condition that is there, the class that
it lengthens.
-/

namespace Cascade

namespace Selector

def compounds (selector : Selector) : List Compound :=
  selector.map Link.compound

/-- The condition at a place: in one of the compounds, at one position. -/
def condition? (selector : Selector) (place : Nat × Nat) : Option Simple :=
  selector.compounds[place.1]?.bind fun compound => compound[place.2]?

variable {selector other : Selector} {front added : List Compound}
  {last changed : Compound} {place : Nat × Nat} {simple : Simple}

theorem compounds_eq_nil_iff : selector.compounds = [] ↔ selector = [] :=
  List.map_eq_nil_iff

theorem length_compounds (selector : Selector) :
    selector.compounds.length = selector.length :=
  List.length_map _

theorem compounds_append (first second : Selector) :
    compounds (first ++ second) = first.compounds ++ second.compounds :=
  List.map_append

theorem compounds_concat (links : Selector) (last : Link) :
    compounds (links ++ [last]) = links.compounds ++ [last.compound] :=
  compounds_append links [last]

/-- Changing the last link changes the last compound. -/
theorem compounds_mapLast (change : Link → Link) (links : Selector) (last : Link) :
    compounds (mapLast change (links ++ [last])) =
      links.compounds ++ [(change last).compound] := by
  rw [mapLast_concat, compounds_concat]

theorem compounds_mapLast_combinator (combinator : Combinator) (selector : Selector) :
    compounds (mapLast (fun last => { last with combinator := combinator }) selector) =
      selector.compounds := by
  rcases List.eq_nil_or_concat selector with rfl | ⟨links, last, rfl⟩
  · rfl
  · rw [List.concat_eq_append, compounds_mapLast, compounds_concat]

theorem compounds_push (selector : Selector) (combinator : Combinator)
    (compound : Compound) :
    compounds (selector.push combinator compound) = selector.compounds ++ [compound] := by
  rw [push, compounds_append, compounds_mapLast_combinator]
  rfl

/-- What stands in a compound other than the last is untouched, whatever happens to
the last one and behind it. -/
theorem condition?_of_concat (h : selector.compounds = front ++ [last])
    (hplace : selector.condition? place = some simple) :
    (∀ added (other : Selector), other.compounds = front ++ added →
        other.condition? place = some simple) ∨
      place.1 = front.length ∧ last[place.2]? = some simple := by
  unfold condition? at hplace
  rw [h] at hplace
  rcases Nat.lt_trichotomy place.1 front.length with hlt | heq | hgt
  · left
    intro added other hother
    rw [List.getElem?_append_left hlt] at hplace
    rw [condition?, hother, List.getElem?_append_left hlt]
    exact hplace
  · right
    rw [heq, List.getElem?_concat_length] at hplace
    exact ⟨heq, hplace⟩
  · rw [List.getElem?_eq_none (by simp; omega)] at hplace
    cases hplace

theorem condition?_of_front (h : other.compounds = front ++ changed :: added)
    (hplace : place.1 = front.length) : other.condition? place = changed[place.2]? := by
  rw [condition?, h, hplace, List.getElem?_append_right (Nat.le_refl _), Nat.sub_self]
  rfl

/-- Compounds behind a selector leave its conditions in their places. -/
theorem condition?_of_append (h : other.compounds = selector.compounds ++ added)
    (hplace : selector.condition? place = some simple) :
    other.condition? place = some simple := by
  unfold condition? at hplace ⊢
  obtain ⟨compound, hcompound, hsimple⟩ := Option.bind_eq_some_iff.mp hplace
  rw [h, List.getElem?_append_left (List.getElem?_eq_some_iff.mp hcompound).1]
  exact hplace

/-- So do conditions behind its last compound. -/
theorem condition?_of_extended (h : selector.compounds = front ++ [last])
    (hother : other.compounds = front ++ changed :: added) (hlast : last <+: changed)
    (hplace : selector.condition? place = some simple) :
    other.condition? place = some simple := by
  rcases condition?_of_concat h hplace with hkept | ⟨heq, hsimple⟩
  · exact hkept _ other hother
  · rw [condition?_of_front hother heq]
    obtain ⟨conditions, rfl⟩ := hlast
    rw [List.getElem?_append_left (List.getElem?_eq_some_iff.mp hsimple).1]
    exact hsimple

end Selector

namespace Draft

variable {symbols : Symbols} {draft next : Draft} {kind : Kind} {name : Text}

/-! ## Statements -/

/-- The drafts that arise when names of any kind are applied one after the other, each
under symbols of its own, with the number of names.  That a declaration is passed may
be noted at any time. -/
inductive Arises : Nat → Draft → Prop
  | empty : Arises 0 .empty
  | enter {count : Nat} {draft : Draft} (display : Text) :
      Arises count draft → Arises count (draft.enter display)
  | apply {count : Nat} {draft next : Draft} {symbols : Symbols} {kind : Kind}
      {name : Text} : Arises count draft → draft.apply symbols kind name = .ok next →
      Arises (count + 1) next

/-- What holds of a draft between two steps. -/
structure Coherent (draft : Draft) : Prop where
  /-- A pristine draft ends with the class of its base and nothing else. -/
  fresh : draft.pristine = true → ∃ base text front combinator, draft.base = some base ∧
    escaped base = .ok text ∧ draft.links = front ++ [⟨[.className text], combinator⟩]
  /-- A base comes with the compound it was opened on. -/
  placed : draft.base.isSome = true → draft.links ≠ []

/-- How a step changes the compounds of a draft.  A step that changes the last one
finds a last one, and the others stay as they are. -/
inductive Rewrites (symbols : Symbols) (draft : Draft) : Kind → Text → Draft → Prop
  | block {kind : Kind} {name text : Text} {next : Draft} :
      kind = .component ∨ kind = .tweak ∨ kind = .location →
      next.links.compounds = draft.links.compounds ++ [[.className text]] →
      Rewrites symbols draft kind name next
  /-- A part below its block. -/
  | part {name text : Text} {next : Draft} : draft.pristine = false →
      next.links.compounds = draft.links.compounds ++ [[.className text]] →
      Rewrites symbols draft .part name next
  /-- A part in the place of its block. -/
  | replace {base old name text : Text} {front : List Compound} {next : Draft} :
      draft.pristine = true → draft.base = some base → escaped base = .ok old →
      next.base = some (base ++ symbols.part ++ name) →
      escaped (base ++ symbols.part ++ name) = .ok text →
      draft.links.compounds = front ++ [[.className old]] →
      next.links.compounds = front ++ [[.className text]] →
      Rewrites symbols draft .part name next
  | option {name text : Text} {front : List Compound} {last : Compound} {next : Draft} :
      escaped (symbols.option ++ name) = .ok text →
      draft.links.compounds = front ++ [last] →
      next.links.compounds = front ++ [last ++ [.className text]] →
      Rewrites symbols draft .option name next
  | sibling {name : Text} {front : List Compound} {last : Compound} {next : Draft} :
      draft.links.compounds = front ++ [last] →
      next.links.compounds = front ++ [last, last] →
      Rewrites symbols draft .sibling name next
  /-- A fragment below the current element. -/
  | nest {fragment : Text} {first : Link} {rest : Selector} {next : Draft} :
      Selector.ofText fragment = .ok (first :: rest) →
      Compound.hasParent first.compound = false →
      next.links.compounds = draft.links.compounds ++ first.compound :: rest.compounds →
      Rewrites symbols draft .raw fragment next
  /-- A fragment that continues the current element. -/
  | glue {fragment : Text} {conditions last : Compound} {combinator : Combinator}
      {rest : Selector} {front : List Compound} {next : Draft} :
      Selector.ofText fragment = .ok (⟨.parent :: conditions, combinator⟩ :: rest) →
      conditions.any Simple.isElement = false →
      draft.links.compounds = front ++ [last] →
      next.links.compounds = front ++ (last ++ conditions) :: rest.compounds →
      Rewrites symbols draft .raw fragment next
  /-- A fragment that continues the last class of the current element. -/
  | lengthen {fragment name suffix : Text} {conditions last : Compound}
      {combinator : Combinator} {rest : Selector} {front : List Compound} {next : Draft} :
      Selector.ofText fragment =
        .ok (⟨.parent :: .element suffix :: conditions, combinator⟩ :: rest) →
      draft.links.compounds = front ++ [last ++ [.className name]] →
      next.links.compounds =
        front ++ (last ++ .className (name ++ suffix) :: conditions) :: rest.compounds →
      Rewrites symbols draft .raw fragment next

inductive Becomes (draft : Draft) (kind : Kind) (next : Draft) (place : Nat × Nat) :
    Simple → Prop
  | kept {simple : Simple} : next.links.condition? place = some simple →
      Becomes draft kind next place simple
  /-- The class of a block whose place a part takes. -/
  | replaced {base text full other : Text} : kind = .part → draft.pristine = true →
      draft.base = some base → escaped base = .ok text → next.base = some full →
      escaped full = .ok other → place.1 + 1 = draft.links.length →
      next.links.condition? place = some (.className other) →
      Becomes draft kind next place (.className text)
  /-- The last class of the current element, behind which a suffix is written. -/
  | lengthened {name suffix : Text} : kind = .raw → place.1 + 1 = draft.links.length →
      draft.links.condition? (place.1, place.2 + 1) = none →
      next.links.condition? place = some (.className (name ++ suffix)) →
      Becomes draft kind next place (.className name)

/-! ## One step -/

theorem Rewrites.links_ne_nil (h : Rewrites symbols draft kind name next) :
    next.links ≠ [] := by
  intro hnil
  rw [← Selector.compounds_eq_nil_iff] at hnil
  cases h with
  | block _ hnext => simp [hnext] at hnil
  | part _ hnext => simp [hnext] at hnil
  | replace _ _ _ _ _ _ hnext => simp [hnext] at hnil
  | option _ _ hnext => simp [hnext] at hnil
  | sibling _ hnext => simp [hnext] at hnil
  | nest _ _ hnext => simp [hnext] at hnil
  | glue _ _ _ hnext => simp [hnext] at hnil
  | lengthen _ _ hnext => simp [hnext] at hnil

theorem compounds_glued {extended : Draft} {front rest : Selector} {last : Link}
    (h : extended.links = front ++ [last]) (conditions : Compound)
    (combinator : Combinator) :
    ((extended.appendConditions conditions combinator).appendLinks rest).links.compounds =
      front.compounds ++ (last.compound ++ conditions) :: rest.compounds := by
  change Selector.compounds (extended.links.mapLast _ ++ rest) = _
  rw [h, Selector.compounds_append, Selector.compounds_mapLast, List.append_assoc]
  rfl

/-- A step from a coherent draft does nothing but what is listed. -/
theorem Coherent.rewrites (hdraft : draft.Coherent)
    (h : Passes symbols draft kind name next) : Rewrites symbols draft kind name next := by
  cases h with
  | component => exact .block (.inl rfl) (Selector.compounds_push _ _ _)
  | tweak => exact .block (.inr (.inl rfl)) (Selector.compounds_push _ _ _)
  | location => exact .block (.inr (.inr rfl)) (Selector.compounds_push _ _ _)
  | replace hbase hpristine htext =>
      obtain ⟨base, old, front, combinator, hsame, hold, hlinks⟩ := hdraft.fresh hpristine
      cases hbase.symm.trans hsame
      have hbefore := Selector.compounds_concat front ⟨[.className old], combinator⟩
      refine .replace hpristine hbase hold rfl htext (hlinks ▸ hbefore) ?_
      change Selector.compounds (draft.links.mapLast _) = _
      rw [hlinks, Selector.compounds_mapLast]
  | part _ hpristine => exact .part hpristine (Selector.compounds_push _ _ _)
  | option hbase htext =>
      have hne := hdraft.placed hbase
      obtain ⟨front, last, hlinks⟩ : ∃ front last, draft.links = front ++ [last] :=
        ⟨_, _, (List.dropLast_concat_getLast hne).symm⟩
      refine .option htext (hlinks ▸ Selector.compounds_concat front last) ?_
      change Selector.compounds (draft.links.mapLast _) = _
      rw [hlinks, Selector.compounds_mapLast]
  | @sibling _ last hlast =>
      obtain ⟨front, hlinks⟩ := List.getLast?_eq_some_iff.mp hlast
      have hbefore : draft.links.compounds = Selector.compounds front ++ [last.compound] :=
        hlinks ▸ Selector.compounds_concat front last
      refine .sibling hbefore ?_
      change Selector.compounds (draft.links.push _ _) = _
      rw [Selector.compounds_push, hbefore, List.append_assoc]
      rfl
  | @nest _ first rest hselector _ hparent _ =>
      refine .nest hselector hparent ?_
      change Selector.compounds (Selector.mapLast _ _ ++ rest) = _
      rw [Selector.compounds_append, Selector.compounds_mapLast_combinator,
        Selector.compounds_push, List.append_assoc]
      rfl
  | @glue _ behind conditions combinator suffix rest extended hselector _ hlinks _ hsplit
      hextend helements =>
      rw [splitSuffix_eq hsplit] at hselector
      cases hextend with
      | none =>
          obtain ⟨front, last, hlast⟩ : ∃ front last, draft.links = front ++ [last] :=
            ⟨_, _, (List.dropLast_concat_getLast hlinks).symm⟩
          exact .glue hselector helements (hlast ▸ Selector.compounds_concat front last)
            (compounds_glued hlast conditions combinator)
      | @some front compound name suffix outer hlast =>
          refine .lengthen hselector (hlast ▸ Selector.compounds_concat front _)
            ((compounds_glued rfl conditions combinator).trans ?_)
          rw [List.append_assoc]
          rfl

/-- Every step leaves a coherent draft behind. -/
theorem Coherent.step (hdraft : draft.Coherent)
    (h : Passes symbols draft kind name next) : next.Coherent := by
  have hne := (hdraft.rewrites h).links_ne_nil
  refine ⟨fun hpristine => ?_, fun _ => hne⟩
  cases h with
  | component htext => exact ⟨_, _, _, .none, rfl, htext, rfl⟩
  | tweak htext => exact ⟨_, _, _, .none, rfl, htext, rfl⟩
  | location htext => exact ⟨_, _, _, .none, rfl, htext, rfl⟩
  | part _ _ htext => exact ⟨_, _, _, .none, rfl, htext, rfl⟩
  | replace _ hfresh htext =>
      obtain ⟨_, _, front, combinator, _, _, hlinks⟩ := hdraft.fresh hfresh
      refine ⟨_, _, front, combinator, rfl, htext, ?_⟩
      change draft.links.mapLast _ = _
      rw [hlinks, Selector.mapLast_concat]
  | option => cases hpristine
  | sibling hlast =>
      -- The copy holds what the original holds, and the base is the same.
      obtain ⟨base, text, front, combinator, hbase, htext, hlinks⟩ := hdraft.fresh hpristine
      rw [hlinks, List.getLast?_concat] at hlast
      cases hlast
      exact ⟨base, text, _, .none, hbase, htext, rfl⟩
  | nest => cases hpristine
  | glue => cases hpristine

/-- No condition is lost, and only two are changed: the class of a block in a part's
place, and the class that a suffix lengthens. -/
theorem Rewrites.becomes (h : Rewrites symbols draft kind name next) {place : Nat × Nat}
    {simple : Simple} (hplace : draft.links.condition? place = some simple) :
    Becomes draft kind next place simple := by
  cases h with
  | block _ hnext => exact .kept (Selector.condition?_of_append hnext hplace)
  | part _ hnext => exact .kept (Selector.condition?_of_append hnext hplace)
  | nest _ _ hnext => exact .kept (Selector.condition?_of_append hnext hplace)
  | option _ hbefore hnext =>
      exact .kept (Selector.condition?_of_extended hbefore hnext
        (List.prefix_append _ _) hplace)
  | sibling hbefore hnext =>
      exact .kept (Selector.condition?_of_extended hbefore hnext (List.prefix_refl _) hplace)
  | glue _ _ hbefore hnext =>
      exact .kept (Selector.condition?_of_extended hbefore hnext
        (List.prefix_append _ _) hplace)
  | @replace base old _ text front _ hpristine hbase hold hfull htext hbefore hnext =>
      have hlength := congrArg List.length hbefore
      rw [Selector.length_compounds, List.length_append, List.length_singleton] at hlength
      rcases Selector.condition?_of_concat hbefore hplace with hkept | ⟨heq, hsimple⟩
      · exact .kept (hkept _ _ hnext)
      · obtain ⟨hlt, rfl⟩ := List.getElem?_eq_some_iff.mp hsimple
        obtain hzero : place.2 = 0 := by simpa using hlt
        have hafter := Selector.condition?_of_front hnext heq
        simp only [hzero, List.getElem_cons_zero, List.getElem?_cons_zero] at hafter ⊢
        exact .replaced rfl hpristine hbase hold hfull htext (by omega) hafter
  | @lengthen _ name suffix conditions last _ rest front _ _ hbefore hnext =>
      have hlength := congrArg List.length hbefore
      rw [Selector.length_compounds, List.length_append, List.length_singleton] at hlength
      rcases Selector.condition?_of_concat hbefore hplace with hkept | ⟨heq, hsimple⟩
      · exact .kept (hkept _ _ hnext)
      · have hafter := Selector.condition?_of_front hnext heq
        by_cases hlt : place.2 < last.length
        · rw [List.getElem?_append_left hlt] at hsimple hafter
          exact .kept (hafter.trans hsimple)
        · obtain ⟨hle, rfl⟩ := List.getElem?_eq_some_iff.mp hsimple
          obtain hend : place.2 = last.length := by
            rw [List.length_append, List.length_singleton] at hle
            omega
          have hbehind := @Selector.condition?_of_front draft.links front []
            (last ++ [.className name]) (place.1, place.2 + 1) hbefore heq
          simp only [hend, List.getElem_concat_length]
          have hlonger : next.links.condition? place = some (.className (name ++ suffix)) := by
            rw [hafter, hend, List.getElem?_append_right (Nat.le_refl _), Nat.sub_self]
            rfl
          exact .lengthened rfl (by omega)
            (hbehind.trans (List.getElem?_eq_none (by simp [hend]))) hlonger

/-! ## Every draft that arises -/

variable {count : Nat}

theorem coherent_empty : empty.Coherent where
  fresh := nofun
  placed := nofun

theorem Coherent.enter (h : draft.Coherent) (display : Text) :
    (draft.enter display).Coherent :=
  ⟨h.fresh, h.placed⟩

theorem Arises.coherent (h : Arises count draft) : draft.Coherent := by
  induction h with
  | empty => exact coherent_empty
  | enter display _ ih => exact ih.enter display
  | apply _ happly ih => exact ih.step (apply_eq_ok_iff.mp happly)

/-- There are no links before the first name, and always some behind it. -/
theorem Arises.links_eq_nil_iff (h : Arises count draft) : draft.links = [] ↔ count = 0 := by
  induction h with
  | empty => exact iff_of_true rfl rfl
  | enter _ _ ih => exact ih
  | apply hdraft happly _ =>
      have hrewrites := hdraft.coherent.rewrites (apply_eq_ok_iff.mp happly)
      exact iff_of_false hrewrites.links_ne_nil (Nat.succ_ne_zero _)

/-- A draft that arises is coherent, and it has links as soon as a name has been
applied.  A suffix finds the class that it lengthens, a name that is applied changes the
compounds in one of few ways, all of which find the last compound that they change, and
no condition is lost on the way. -/
theorem coherent_of_arises (h : Arises count draft) :
    draft.Coherent ∧ (draft.links = [] ↔ count = 0) ∧
      (∀ suffix extended, draft.extendClass suffix = .ok extended →
        Lengthens draft (some suffix) extended) ∧
      ∀ symbols kind name next, draft.apply symbols kind name = .ok next →
        Rewrites symbols draft kind name next ∧
          ∀ place simple, draft.links.condition? place = some simple →
            Becomes draft kind next place simple := by
  refine ⟨h.coherent, h.links_eq_nil_iff, fun _ _ => extendClass_eq_ok_iff.mp,
    fun symbols kind name next happly => ?_⟩
  have hrewrites := h.coherent.rewrites (apply_eq_ok_iff.mp happly)
  exact ⟨hrewrites, fun _ _ => hrewrites.becomes⟩

/-- A part takes the place of the class of its block, its copy is as pristine as the part
is, and a suffix that is glued to the copy lengthens that copy's class alone. -/
theorem coherent_of_arises_glued :
    ∃ block part copy glued : Draft,
      empty.apply .builtin .component ['a'] = .ok block ∧
      block.apply .builtin .part ['p'] = .ok part ∧
      part.apply .builtin .sibling [] = .ok copy ∧
      copy.apply .builtin .raw "&-x:hover".toList = .ok glued ∧
      glued.links = [⟨[.className "a\\.p".toList], .adjacent⟩,
        ⟨[.className "a\\.p-x".toList, .pseudoClass "hover".toList], .none⟩] ∧
      Becomes block .part part (0, 0) (.className ['a']) ∧
      copy.Coherent ∧ Becomes copy .raw glued (1, 0) (.className "a\\.p".toList) := by
  have hfragment : Selector.ofText "&-x:hover".toList =
      .ok [⟨[.parent, .element "-x".toList, .pseudoClass "hover".toList], .none⟩] := by
    decide +kernel
  have hglue (copy : Draft) (front : Selector) (combinator : Combinator) (name : Text)
      (hlinks : copy.links = front ++ [⟨[] ++ [.className name], combinator⟩]) :
      Passes .builtin copy .raw "&-x:hover".toList _ :=
    .glue hfragment nofun (by simp [hlinks]) rfl rfl (.some hlinks) rfl
  -- Every draft of the run is found by computing the steps that lead to it.
  refine ⟨_, _, _, _, rfl, rfl, rfl,
    apply_eq_ok_iff.mpr (hglue _ [⟨[.className "a\\.p".toList], .adjacent⟩] _ _ rfl), rfl, ?_⟩
  have hblock : Arises 1 _ := .apply .empty (rfl : empty.apply .builtin .component ['a'] = _)
  have hcopy : Arises 3 _ := (hblock.apply (rfl : apply .builtin .part ['p'] _ = _)).apply
    (rfl : apply .builtin .sibling [] _ = _)
  obtain ⟨-, -, -, hpart⟩ := coherent_of_arises hblock
  obtain ⟨hcoherent, -, -, hraw⟩ := coherent_of_arises hcopy
  exact ⟨(hpart .builtin .part ['p'] _ rfl).2 _ _ rfl, hcoherent,
    (hraw .builtin .raw _ _ (apply_eq_ok_iff.mpr (hglue _ _ _ _ rfl))).2 _ _ rfl⟩

end Draft

end Cascade
