import Cascade.Proofs.Naming.Expansion

/-!
# Where compounds come from

A name changes the last compound of a draft and appends others.  `CompoundAfter` lists
what a compound can be afterwards: one of those that were there, one of them with
more conditions behind it, a class by itself, or a compound of a fragment.  What
holds of the compounds of every selector is proved from this list and not from
the steps.
-/

namespace Cascade

namespace Selector

/-- Only the last link is changed. -/
theorem mem_mapLast {change : Link → Link} {links : Selector} {link : Link}
    (h : link ∈ links.mapLast change) :
    link ∈ links ∨ ∃ last ∈ links, link = change last := by
  rcases List.eq_nil_or_concat links with rfl | ⟨front, last, rfl⟩
  · cases h
  · rw [List.concat_eq_append] at h ⊢
    rw [mapLast_concat] at h
    rcases List.mem_append.mp h with h | h
    · exact .inl (List.mem_append_left _ h)
    · exact .inr ⟨last, by simp, List.mem_singleton.mp h⟩

/-- A compound is appended, and none is changed. -/
theorem compound_of_mem_push {links : Selector} {combinator : Combinator}
    {compound : Compound} {link : Link}
    (h : link ∈ links.push combinator compound) :
    (∃ old ∈ links, link.compound = old.compound) ∨ link.compound = compound := by
  rcases List.mem_append.mp h with h | h
  · rcases mem_mapLast h with h | ⟨last, hlast, rfl⟩
    · exact .inl ⟨link, h, rfl⟩
    · exact .inl ⟨last, hlast, rfl⟩
  · exact .inr (congrArg Link.compound (List.mem_singleton.mp h))

end Selector

namespace Draft

/-- A compound of what a draft becomes when a name of some kind is applied. -/
inductive CompoundAfter (draft : Draft) (kind : Kind) (name : Text) : Compound → Prop
  | kept {link : Link} : link ∈ draft.links → CompoundAfter draft kind name link.compound
  | ofClass (text : Text) : CompoundAfter draft kind name [.className text]
  | addClass {link : Link} (text : Text) : link ∈ draft.links →
      CompoundAfter draft kind name (link.compound ++ [.className text])
  /-- A compound of a fragment that does not continue the current element. -/
  | fragment {selector : Selector} {link : Link} : kind = .raw →
      Selector.ofText name = .ok selector → link ∈ selector →
      Compound.hasParent link.compound = false →
      Compound.hasMisplacedElement link.compound = false →
      CompoundAfter draft kind name link.compound
  /-- The current element with the conditions behind the parent reference. -/
  | glued {link : Link} {conditions : Compound} {combinator : Combinator}
      {rest : Selector} : kind = .raw →
      Selector.ofText name = .ok (⟨.parent :: conditions, combinator⟩ :: rest) →
      Compound.hasParent conditions = false →
      conditions.any Simple.isElement = false → link ∈ draft.links →
      CompoundAfter draft kind name (link.compound ++ conditions)
  /-- The same behind a suffix, which lengthens the last class. -/
  | lengthened {front conditions : Compound} {short suffix : Text}
      {before combinator : Combinator} {rest : Selector} : kind = .raw →
      Selector.ofText name =
        .ok (⟨.parent :: .element suffix :: conditions, combinator⟩ :: rest) →
      Compound.hasParent conditions = false →
      conditions.any Simple.isElement = false →
      ⟨front ++ [.className short], before⟩ ∈ draft.links →
      CompoundAfter draft kind name
        (front ++ [.className (short ++ suffix)] ++ conditions)

variable {symbols : Symbols} {draft next last : Draft} {kind : Kind} {name : Text}

theorem compoundAfter_pushClass {text : Text} {link : Link}
    (h : link ∈ (draft.pushClass text).links) :
    CompoundAfter draft kind name link.compound := by
  rcases Selector.compound_of_mem_push h with ⟨old, hold, heq⟩ | heq
  · rw [heq]
    exact .kept hold
  · rw [heq]
    exact .ofClass text

/-- What a fragment continues is the current element, lengthened if there is a
suffix. -/
theorem compoundAfter_glue {behind conditions : Compound} {combinator : Combinator}
    {suffix : Option Text} {rest : Selector} {extended : Draft}
    (hselector : Selector.ofText name =
      .ok (⟨.parent :: behind, combinator⟩ :: rest))
    (hparent : Compound.hasParent behind = false)
    (hsplit : splitSuffix behind = (suffix, conditions))
    (hextend : Lengthens draft suffix extended)
    (helements : conditions.any Simple.isElement = false) {link : Link}
    (h : link ∈ (extended.appendConditions conditions combinator).links) :
    CompoundAfter draft .raw name link.compound := by
  obtain rfl := splitSuffix_eq hsplit
  cases hextend with
  | none =>
      rcases Selector.mem_mapLast h with h | ⟨last, hlast, rfl⟩
      · exact .kept h
      · exact .glued rfl hselector hparent helements hlast
  | @some front before short suffix old hlast =>
      have hparent : Compound.hasParent conditions = false := by
        simpa [Compound.hasParent, Simple.isParent] using hparent
      rw [appendConditions, Selector.mapLast_concat] at h
      rcases List.mem_append.mp h with h | h
      · exact .kept (by rw [hlast]; exact List.mem_append_left _ h)
      · rw [List.mem_singleton.mp h]
        exact .lengthened rfl hselector hparent helements
          (by rw [hlast]; exact List.mem_append_right _ (List.mem_singleton_self _))

/-- Every compound of a draft that has passed a name is in the list. -/
theorem Passes.compoundAfter (h : Passes symbols draft kind name next) :
    ∀ link ∈ next.links, CompoundAfter draft kind name link.compound := by
  intro link hlink
  cases h with
  | component => exact compoundAfter_pushClass hlink
  | tweak => exact compoundAfter_pushClass hlink
  | location => exact compoundAfter_pushClass hlink
  | replace =>
      rcases Selector.mem_mapLast hlink with hlink | ⟨last, _, rfl⟩
      · exact .kept hlink
      · exact .ofClass _
  | part => exact compoundAfter_pushClass hlink
  | option =>
      rcases Selector.mem_mapLast hlink with hlink | ⟨last, hlast, rfl⟩
      · exact .kept hlink
      · exact .addClass _ hlast
  | sibling hlast =>
      rcases Selector.compound_of_mem_push hlink with ⟨old, hold, heq⟩ | heq
      · rw [heq]
        exact .kept hold
      · rw [heq]
        exact .kept (List.mem_of_getLast? hlast)
  | @nest fragment first rest hselector hrest hparent helement =>
      rcases List.mem_append.mp hlink with hlink | hlink
      · have hcompound : (∃ old ∈ draft.links, link.compound = old.compound) ∨
            link.compound = first.compound := by
          rcases Selector.mem_mapLast hlink with hlink | ⟨last, hlast, rfl⟩
          · exact Selector.compound_of_mem_push hlink
          · exact @Selector.compound_of_mem_push _ .descendant first.compound last hlast
        rcases hcompound with ⟨old, hold, heq⟩ | heq
        · rw [heq]
          exact .kept hold
        · rw [heq]
          exact .fragment rfl hselector List.mem_cons_self hparent helement
      · exact .fragment rfl hselector (List.mem_cons_of_mem _ hlink)
          (hrest link hlink).1 (hrest link hlink).2
  | glue hselector hrest _ hbehind hsplit hextend helements =>
      rcases List.mem_append.mp hlink with hlink | hlink
      · exact compoundAfter_glue hselector hbehind hsplit hextend helements hlink
      · exact .fragment rfl hselector (List.mem_cons_of_mem _ hlink)
          (hrest link hlink).1 (hrest link hlink).2

/-! ## Conditions -/

/-- Whether everything in the selector that a text is read as has a property. -/
def OfFragment (holds : Simple → Prop) (fragment : Text) : Prop :=
  ∀ selector, Selector.ofText fragment = .ok selector →
    ∀ link ∈ selector, ∀ simple ∈ link.compound, holds simple

/-- Apart from fragments, names bring nothing but classes. -/
theorem CompoundAfter.forall_simple {holds : Simple → Prop} {compound : Compound}
    (h : CompoundAfter draft kind name compound)
    (hclass : ∀ text, holds (.className text))
    (hfragment : kind = .raw → OfFragment holds name)
    (hdraft : ∀ link ∈ draft.links, ∀ simple ∈ link.compound, holds simple) :
    ∀ simple ∈ compound, holds simple := by
  cases h with
  | kept hlink => exact hdraft _ hlink
  | ofClass text => exact List.forall_mem_singleton.mpr (hclass text)
  | addClass text hlink =>
      exact List.forall_mem_append.mpr
        ⟨hdraft _ hlink, List.forall_mem_singleton.mpr (hclass text)⟩
  | fragment hkind hselector hlink _ _ =>
      exact hfragment hkind _ hselector _ hlink
  | glued hkind hselector _ _ hlink =>
      have hfirst := hfragment hkind _ hselector _ List.mem_cons_self
      exact List.forall_mem_append.mpr
        ⟨hdraft _ hlink, (List.forall_mem_cons.mp hfirst).2⟩
  | lengthened hkind hselector _ _ hlink =>
      have hfirst := hfragment hkind _ hselector _ List.mem_cons_self
      have hold := List.forall_mem_append.mp (hdraft _ hlink)
      have hconditions := (List.forall_mem_cons.mp (List.forall_mem_cons.mp hfirst).2).2
      exact List.forall_mem_append.mpr ⟨List.forall_mem_append.mpr
        ⟨hold.1, List.forall_mem_singleton.mpr (hclass _)⟩, hconditions⟩

/-- What is built on a way is made of classes and of the fragments on it. -/
theorem Reaches.forall_simple {holds : Simple → Prop} {path : List Declaration}
    {names : List Text} (h : Reaches symbols draft path names last)
    (hclass : ∀ text, holds (.className text))
    (hfragments : ∀ outer fragment, (outer, fragment) ∈ path.zip names →
      outer.kind = .raw → OfFragment holds fragment)
    (hdraft : ∀ link ∈ draft.links, ∀ simple ∈ link.compound, holds simple) :
    ∀ link ∈ last.links, ∀ simple ∈ link.compound, holds simple := by
  induction h with
  | refl => exact hdraft
  | step hpasses _ ih =>
      refine ih (fun outer fragment hmem =>
        hfragments outer fragment (List.mem_cons_of_mem _ hmem)) ?_
      intro link hlink
      exact (hpasses.compoundAfter link hlink).forall_simple hclass
        (hfragments _ _ List.mem_cons_self) hdraft

end Draft

end Cascade
