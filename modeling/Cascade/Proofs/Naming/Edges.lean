import Cascade.Proofs.Ident.Written
import Cascade.Proofs.Naming.Expansion
import Cascade.Proofs.Selector.Trimmed

/-!
# The edges of a selector

A selector starts with no white space, and what white space there is behind it can
be taken off its last condition.  Written names keep to this, and so do fragments,
since a fragment is trimmed before it is read.  A suffix may come to stand last, as
the end of the class that it lengthens, and ends with what the fragment ended with.
-/

namespace Cascade

namespace Simple

def EndsWithoutSpace (simple : Simple) : Prop :=
  ∃ front c, simple.text = front ++ [c] ∧ Text.isSpace c = false

/-- A written class goes without the space that closes an escape. -/
theorem exists_trimsEndTo_className {name text : Text}
    (h : Ident.escape? name = some text) :
    ∃ short, (className text).TrimsEndTo short := by
  obtain ⟨short, spaces, rfl, hname, htrimmed, hspaces⟩ :=
    Ident.exists_isTrimmed_of_escape? h
  exact ⟨_, trimsEndTo_className hname htrimmed hspaces⟩

theorem startsWithoutSpace_className (name : Text) : (className name).StartsWithoutSpace :=
  ⟨'.', name, rfl, by decide⟩

theorem IsSpelled.text_ne_nil {simple : Simple} (h : simple.IsSpelled) :
    simple.text ≠ [] := by
  obtain ⟨text, hspells⟩ := h
  obtain ⟨c, rest, rfl, _⟩ := hspells.exists_cons
  intro hnil
  have hhead := hspells.sameEdges.1
  rw [hnil] at hhead
  cases hhead

/-- A lengthened class ends like the suffix. -/
theorem endsWithoutSpace_className_append {name suffix : Text}
    (h : (element suffix).EndsWithoutSpace) :
    (className (name ++ suffix)).EndsWithoutSpace := by
  obtain ⟨front, c, hsuffix, hc⟩ := h
  refine ⟨'.' :: name ++ front, c, ?_, hc⟩
  rw [show suffix = front ++ [c] from hsuffix]
  simp [text]

theorem EndsWithoutSpace.exists_trimsEndTo {simple : Simple} (h : simple.EndsWithoutSpace)
    (hspelled : simple.IsSpelled) : ∃ short, simple.TrimsEndTo short := by
  obtain ⟨front, c, htext, hc⟩ := h
  exact ⟨simple, trimsEndTo_self hspelled htext hc⟩

end Simple

/-! ## The ends of a selector -/

namespace Selector

theorem hasTrimmableEnds_nil : HasTrimmableEnds [] := ⟨by simp [first?], by simp [last?]⟩

theorem last?_append {rest : Selector} (hne : rest ≠ []) (links : Selector) :
    last? (links ++ rest) = last? rest := by
  rw [last?, last?, List.getLast?_append_of_ne_nil _ hne]

theorem first?_append {links : Selector} (hne : links ≠ []) (rest : Selector) :
    first? (links ++ rest) = first? links := by
  obtain ⟨link, tail, rfl⟩ := List.exists_cons_of_ne_nil hne
  rfl

/-- Behind a selector with such ends only the other end counts. -/
theorem HasTrimmableEnds.behind {links rest : Selector} (h : HasTrimmableEnds links)
    (combinator : Combinator) (hne : rest ≠ [])
    (hfirst : links = [] → ∀ simple ∈ first? rest, simple.StartsWithoutSpace)
    (hlast : ∀ simple ∈ last? rest, ∃ short, simple.TrimsEndTo short) :
    HasTrimmableEnds
      (mapLast (fun last => { last with combinator := combinator }) links ++ rest) := by
  refine ⟨?_, by rwa [last?_append hne]⟩
  rcases List.eq_nil_or_concat links with rfl | ⟨front, last, rfl⟩
  · exact hfirst rfl
  · rw [List.concat_eq_append] at h ⊢
    rw [mapLast_concat, first?_append (by simp)]
    have hsame : first? (front ++ [{ last with combinator := combinator }]) =
        first? (front ++ [last]) := by
      cases front <;> rfl
    rw [hsame]
    exact h.first

/-- The last compound of a selector with such ends may be replaced if it starts as it did,
and links may follow it. -/
theorem HasTrimmableEnds.replace_last {front rest : Selector} {link other : Link}
    (h : HasTrimmableEnds (front ++ [link]))
    (hfirst : ∀ simple ∈ other.compound.head?,
      simple ∈ link.compound.head? ∨ simple.StartsWithoutSpace)
    (hlast : ∀ simple ∈ last? (other :: rest), ∃ short, simple.TrimsEndTo short) :
    HasTrimmableEnds (front ++ other :: rest) := by
  refine ⟨?_, by rwa [last?_append (by simp)]⟩
  cases front with
  | nil =>
      intro simple hsimple
      rcases hfirst simple hsimple with hsame | hleads
      · exact h.first simple hsame
      · exact hleads
  | cons link front => exact h.first

/-- What is read of a text has nothing to trim. -/
theorem edges_of_ofText {source : Text} {selector : Selector}
    (h : ofText source = .ok selector) :
    (∀ simple ∈ first? selector, simple.StartsWithoutSpace) ∧
      ∀ simple ∈ last? selector, simple.EndsWithoutSpace ∧ simple.IsSpelled := by
  have hassembled := (spells_of_ofText h).assembled
  have htrimmed := Text.trim_eq_self_iff.mp (trim_text_of_ofText h)
  constructor
  · obtain ⟨first, rest, hfirst, hspelled, htext⟩ := hassembled.exists_first
    rw [hfirst]
    rintro _ ⟨⟩
    obtain ⟨c, tail, hstart⟩ := List.exists_cons_of_ne_nil hspelled.text_ne_nil
    refine ⟨c, tail, hstart, htrimmed.1 c ?_⟩
    rw [htext, hstart]
    rfl
  · obtain ⟨links, conditions, last, hselector, hlast⟩ := hassembled.exists_last
    rw [hlast]
    rintro _ ⟨⟩
    have hspelled : last.IsSpelled :=
      hassembled.pieces ⟨conditions ++ [last], .none⟩ (by simp [hselector]) last (by simp)
    obtain ⟨front, c, htext⟩ : ∃ front c, last.text = front ++ [c] :=
      ⟨_, _, (List.dropLast_concat_getLast hspelled.text_ne_nil).symm⟩
    refine ⟨⟨front, c, htext, htrimmed.2 c ?_⟩, hspelled⟩
    rw [hselector, text_concat, htext, ← List.append_assoc, List.getLast?_concat]
    rfl

end Selector

/-! ## One name -/

namespace Draft

open Selector (HasTrimmableEnds first? last?)

variable {symbols : Symbols} {draft next last : Draft} {kind : Kind} {name : Text}

theorem escape?_of_escaped {name text : Text} (h : escaped name = .ok text) :
    Ident.escape? name = some text := by
  unfold escaped at h
  split at h
  · rename_i htext
    cases h
    exact htext
  · cases h

theorem Built.pieces {holds : Simple → Prop} (h : draft.Built holds) :
    ∀ link ∈ draft.links, ∀ simple ∈ link.compound, holds simple := by
  rcases h.assembled with hnil | hassembled
  · simp [hnil]
  · exact hassembled.pieces

theorem hasTrimmableEnds_pushClass (h : HasTrimmableEnds draft.links) {full text : Text}
    (htext : escaped full = .ok text) : HasTrimmableEnds (draft.pushClass text).links := by
  refine h.behind .descendant (by simp) (fun _ => ?_) ?_
  · rintro _ ⟨⟩
    exact Simple.startsWithoutSpace_className text
  · rintro _ ⟨⟩
    exact Simple.exists_trimsEndTo_className (escape?_of_escaped htext)

/-- What a fragment puts behind an element, its own parent reference and suffix
in front of it aside, stands last unless there is nothing of it. -/
theorem last?_glued {front other conditions : Compound} {combinator : Combinator}
    {rest : Selector} {simple : Simple}
    (h : simple ∈ last? (⟨front ++ conditions, combinator⟩ :: rest)) :
    simple ∈ last? (⟨other ++ conditions, combinator⟩ :: rest) ∨
      simple ∈ front.getLast? ∧ conditions = [] ∧ rest = [] := by
  rcases List.eq_nil_or_concat rest with rfl | ⟨links, link, rfl⟩
  · rcases List.eq_nil_or_concat conditions with rfl | ⟨conditions, condition, rfl⟩
    · rw [List.append_nil] at h
      exact .inr ⟨h, rfl, rfl⟩
    · refine .inl ?_
      rw [List.concat_eq_append] at h ⊢
      simpa [last?, ← List.append_assoc] using h
  · refine .inl ?_
    rw [List.concat_eq_append, ← List.cons_append] at h ⊢
    rwa [Selector.last?_append (by simp)] at h ⊢

/-- A compound that is lengthened starts as it did. -/
theorem mem_head?_append {first second : Compound} (hne : first ≠ []) {simple : Simple}
    (h : simple ∈ (first ++ second).head?) : simple ∈ first.head? := by
  obtain ⟨condition, rest, rfl⟩ := List.exists_cons_of_ne_nil hne
  exact h

/-- A fragment is glued behind the last compound, or behind the class in it that
the suffix lengthens. -/
theorem hasTrimmableEnds_glue {fragment : Text} {behind conditions : Compound}
    {combinator : Combinator} {suffix : Option Text} {rest : Selector} {extended : Draft}
    (hselector : Selector.ofText fragment =
      .ok (⟨.parent :: behind, combinator⟩ :: rest)) (hlinks : draft.links ≠ [])
    (hsplit : splitSuffix behind = (suffix, conditions))
    (hextend : Lengthens draft suffix extended) (hbuilt : draft.Built Simple.IsSpelled)
    (hnext : ∀ link ∈ (extended.appendConditions conditions combinator).links ++ rest,
      ∀ simple ∈ link.compound, simple.IsSpelled)
    (h : HasTrimmableEnds draft.links) :
    HasTrimmableEnds ((extended.appendConditions conditions combinator).links ++ rest) := by
  have hfragment := (Selector.edges_of_ofText hselector).2
  rw [splitSuffix_eq hsplit] at hfragment
  change HasTrimmableEnds (extended.links.mapLast _ ++ rest)
  change ∀ link ∈ extended.links.mapLast _ ++ rest, _ at hnext
  cases hextend with
  | none =>
      obtain ⟨front, last, hlast⟩ := (hbuilt.assembled_of_ne_nil hlinks).exists_concat
      have hjoined := (hbuilt.assembled_of_ne_nil hlinks).joined last (by simp [hlast])
      rw [hlast] at h ⊢
      rw [Selector.mapLast_concat, List.append_assoc]
      refine h.replace_last
        (fun simple hsimple => .inl (mem_head?_append hjoined.ne_nil hsimple)) ?_
      intro simple hsimple
      rcases @last?_glued _ [.parent] _ _ _ _ hsimple with hmem | ⟨hmem, _, _⟩
      · exact (hfragment simple hmem).1.exists_trimsEndTo (hfragment simple hmem).2
      · -- The fragment is the bare reference and changes nothing.
        refine h.last simple ?_
        rw [Selector.last?_append (by simp)]
        exact hmem
  | @some front before name suffix old hlast =>
      rw [hlast] at h
      rw [Selector.mapLast_concat, List.append_assoc] at hnext ⊢
      refine h.replace_last (fun simple hsimple => ?_) fun simple hsimple => ?_
      · have hhead := mem_head?_append (by simp) hsimple
        cases before with
        | nil =>
            obtain rfl := Option.some.inj hhead
            exact .inr (Simple.startsWithoutSpace_className _)
        | cons condition before => exact .inl hhead
      · rcases @last?_glued _ [.parent, .element suffix] _ _ _ _ hsimple with
          hmem | ⟨hmem, rfl, rfl⟩
        · exact (hfragment simple hmem).1.exists_trimsEndTo (hfragment simple hmem).2
        · -- The suffix stands last in the fragment, and now ends the class.
          rw [List.getLast?_concat] at hmem
          obtain rfl := Option.some.inj hmem
          have hends := (hfragment (.element suffix) rfl).1
          exact (Simple.endsWithoutSpace_className_append hends).exists_trimsEndTo
            (hnext _ (List.mem_append_right _ (List.mem_singleton_self _)) _ (by simp))

/-- Every name keeps the edges of a draft as they should be. -/
theorem Passes.hasTrimmableEnds (h : Passes symbols draft kind name next)
    (hbuilt : draft.Built Simple.IsSpelled) (hnext : next.Built Simple.IsSpelled)
    (hdraft : HasTrimmableEnds draft.links) : HasTrimmableEnds next.links := by
  cases h with
  | component htext => exact hasTrimmableEnds_pushClass hdraft htext
  | tweak htext =>
      exact @hasTrimmableEnds_pushClass { draft with scope := draft.scope.pass .tweak } hdraft
        _ _ htext
  | location htext => exact hasTrimmableEnds_pushClass hdraft htext
  | @replace base name text hbase hpristine htext =>
      obtain ⟨front, old, combinator, hlinks⟩ := hbuilt.fresh hpristine
      change HasTrimmableEnds (draft.links.mapLast _)
      rw [hlinks] at hdraft ⊢
      rw [Selector.mapLast_concat]
      refine hdraft.replace_last ?_ ?_
      · rintro _ ⟨⟩
        exact .inr (Simple.startsWithoutSpace_className text)
      · rintro _ ⟨⟩
        exact Simple.exists_trimsEndTo_className (escape?_of_escaped htext)
  | part hbase _ htext => exact hasTrimmableEnds_pushClass hdraft htext
  | @option name text hbase htext =>
      have hassembled := hbuilt.assembled_of_ne_nil (hbuilt.placed hbase)
      obtain ⟨front, last, hlinks⟩ := hassembled.exists_concat
      change HasTrimmableEnds (draft.links.mapLast _)
      rw [hlinks] at hassembled hdraft ⊢
      have hne := (hassembled.last.joined last (by simp)).ne_nil
      rw [Selector.mapLast_concat]
      refine hdraft.replace_last (fun simple hsimple => .inl (mem_head?_append hne hsimple)) ?_
      simp only [last?, List.getLast?_singleton, Option.bind_some, List.getLast?_concat]
      rintro _ ⟨⟩
      exact Simple.exists_trimsEndTo_className (escape?_of_escaped htext)
  | @sibling name last hlast =>
      refine hdraft.behind .adjacent (by simp) ?_ fun simple hsimple => ?_
      · intro hnil
        rw [hnil] at hlast
        cases hlast
      · refine hdraft.last simple ?_
        rw [last?, hlast]
        exact hsimple
  | @nest fragment first rest hselector _ _ _ =>
      obtain ⟨compound, combinator⟩ := first
      obtain ⟨hfirst, hlast⟩ := Selector.edges_of_ofText hselector
      change HasTrimmableEnds ((draft.links.push .descendant compound).mapLast _ ++ rest)
      rw [Selector.push, Selector.mapLast_concat, List.append_assoc, List.singleton_append]
      exact hdraft.behind .descendant (by simp) (fun _ => hfirst)
        fun simple hsimple =>
          (hlast simple hsimple).1.exists_trimsEndTo (hlast simple hsimple).2
  | glue hselector _ hlinks _ hsplit hextend _ =>
      exact hasTrimmableEnds_glue hselector hlinks hsplit hextend hbuilt hnext.pieces hdraft

/-! ## The whole way to a place -/

/-- A draft that has passed a declaration is built, and there is a link. -/
theorem Reaches.built {holds : Simple → Prop}
    (hplain : ∀ simple : Simple, simple.IsPlain → holds simple)
    {above : List Declaration} {node : Declaration} {names : List Text}
    (hraw : (∃ outer ∈ above ++ [node], outer.kind = .raw) →
      ∀ simple, holds simple ↔ simple.IsSpelled)
    (h : Reaches symbols .empty (above ++ [node]) names last) :
    last.Built holds ∧ last.links ≠ [] := by
  have hstep (outer : Declaration) (houter : outer ∈ above ++ [node]) (name : Text)
      (draft next : Draft) (hbuilt : draft.Built holds)
      (hpasses : Passes symbols draft outer.kind name next) :
      next.Built holds ∧ next.links ≠ [] :=
    hbuilt.apply hplain (fun hkind => hraw ⟨outer, houter, hkind⟩)
      (apply_eq_ok_iff.mpr hpasses)
  obtain ⟨front, back, middle, rfl, hfront, hback⟩ := reaches_append_iff.mp h
  cases hback with
  | step hpasses hrefl =>
      cases hrefl
      refine hstep node (by simp) _ middle last ?_ hpasses
      refine hfront.preserves (fun draft => draft.Built holds) built_empty ?_
      intro outer houter name _ draft next hbuilt hnext
      exact (hstep outer (List.mem_append_left _ houter) name draft next hbuilt hnext).1

theorem Reaches.hasTrimmableEnds {path : List Declaration} {names : List Text}
    (h : Reaches symbols .empty path names last) : HasTrimmableEnds last.links := by
  have hrun : last.Built Simple.IsSpelled ∧ HasTrimmableEnds last.links := by
    refine h.preserves
      (fun draft => draft.Built Simple.IsSpelled ∧ HasTrimmableEnds draft.links)
      ⟨built_empty, Selector.hasTrimmableEnds_nil⟩ ?_
    intro outer _ name _ draft next ⟨hbuilt, hends⟩ hpasses
    have hnext := hbuilt.apply (fun _ hplain => hplain.isSpelled) (fun _ _ => Iff.rfl)
      (apply_eq_ok_iff.mpr hpasses)
    exact ⟨hnext.1, hpasses.hasTrimmableEnds hbuilt hnext.1 hends⟩
  exact hrun.2

/-- The scope compound holds the raising element and a written id at most. -/
theorem forall_mem_scopeCompound {holds : Simple → Prop} {rootId : Text}
    {scope : Compound} (h : draft.scopeCompound rootId = .ok scope)
    (hboost : holds (.element boostElement))
    (hroot : ∀ text, Ident.escape? rootId = some text → holds (.id text)) :
    ∀ simple ∈ scope, holds simple := by
  obtain ⟨root, hescaped, rfl⟩ := exists_root_of_scopeCompound h
  rw [List.forall_mem_append]
  constructor
  · split
    · exact List.forall_mem_singleton.mpr hboost
    · simp
  · split
    · rename_i hrooted
      exact List.forall_mem_singleton.mpr
        (hroot root (escape?_of_escaped (hescaped hrooted)))
    · simp

/-- The scope compound in front brings no white space. -/
theorem hasTrimmableEnds_scopedLinks {scope : Compound} (h : HasTrimmableEnds draft.links)
    (hne : draft.links ≠ []) (hscope : ∀ simple ∈ scope, simple.StartsWithoutSpace) :
    HasTrimmableEnds (draft.scopedLinks scope) := by
  unfold scopedLinks
  split
  · exact h
  · refine ⟨fun simple hsimple => ?_, ?_⟩
    · exact hscope simple (List.mem_of_mem_head? hsimple)
    · rw [← List.singleton_append, Selector.last?_append hne]
      exact h.last

end Draft

namespace Place

variable {symbols : Symbols} {place : Place} {names : List Text}
  {named : NamedSelector}

/-- What a place yields is assembled and can be trimmed at its ends, fragments or
not. -/
theorem Yields.hasTrimmableEnds (h : place.Yields symbols names named) :
    Selector.Assembled Simple.IsSpelled named.selector ∧
      Selector.HasTrimmableEnds named.selector := by
  obtain ⟨draft, hreaches, hfinish⟩ := h
  obtain ⟨hbuilt, hne⟩ := hreaches.built (fun _ hplain => hplain.isSpelled)
    fun _ _ => Iff.rfl
  have hassembled := (hbuilt.finish (fun _ hplain => hplain.isSpelled) hne hfinish).1
  refine ⟨hassembled, ?_⟩
  obtain ⟨scope, hscope, rfl⟩ := exists_of_map_eq_ok hfinish
  refine Draft.hasTrimmableEnds_scopedLinks hreaches.hasTrimmableEnds hne ?_
  exact Draft.forall_mem_scopeCompound hscope ⟨'h', "tml".toList, rfl, by decide⟩
    fun text _ => ⟨'#', text, rfl, by decide⟩

/-- Without fragments it is made of plain conditions, and its tally is its
weight. -/
theorem Yields.plain (h : place.Yields symbols names named)
    (hraw : ∀ outer ∈ place.path, outer.kind ≠ .raw) :
    Selector.Assembled Simple.IsPlain named.selector ∧
      named.specificity = Selector.specificity named.selector := by
  obtain ⟨draft, hreaches, hfinish⟩ := h
  obtain ⟨hbuilt, hne⟩ := hreaches.built (fun _ hplain => hplain)
    fun ⟨outer, houter, hkind⟩ => absurd hkind (hraw outer houter)
  exact hbuilt.finish (fun _ hplain => hplain) hne hfinish

end Place

end Cascade
