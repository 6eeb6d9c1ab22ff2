import Cascade.Proofs.Naming.Edges
import Cascade.Proofs.Naming.Origin
import Cascade.Proofs.Sheet.Comment

/-!
# Selectors without comments and braces

Without fragments a selector holds nothing but names.  In a name a slash and a
star stand behind a backslash each, so no comment opens anywhere, and there is no
opening brace unless there was one in a symbol or a name.
-/

namespace Cascade

/-! ## Names -/

namespace Sheet

theorem not_mem_of_splitHex {limit : Nat} {input digits rest : Text}
    (h : Ident.splitHex limit input = (digits, rest)) : '*' ∉ digits := fun hstar =>
  absurd ((Ident.splitHex_eq_iff.mp h).2.1 '*' hstar) (by decide)

/-- A star in a unit is what its backslash escapes. -/
theorem opensNoComment_of_unit? {input unit rest : Text}
    (h : Ident.unit? input = some (unit, rest)) : OpensNoComment unit := by
  rcases Ident.unit?_eq_some_iff.mp h with ⟨inner, tail, rfl, rfl, htail⟩ |
    ⟨c, rfl, rfl, hname⟩
  · refine opensNoComment_cons (by decide) (by decide) ?_
    rcases Ident.escapeTail?_eq_some_iff.mp htail with ⟨digits, _, hdigits, rfl⟩ |
      ⟨_, hdigits, _⟩ | ⟨c, _, _, rfl⟩
    · have hstar := not_mem_of_splitHex hdigits
      exact (opensNoComment_of_not_mem (by simp [hstar])).2
    · exact (opensNoComment_of_not_mem (not_mem_of_splitHex hdigits)).2
    · exact not_hasComment_iff.mpr (.singleton c)
  · refine opensNoComment_of_not_mem fun hstar => ?_
    obtain rfl := List.mem_singleton.mp hstar
    exact absurd hname (by decide)

/-- No comment opens in a name. -/
theorem opensNoComment_of_isName {name : Text} (h : Ident.IsName name) :
    OpensNoComment name := by
  have hrun := (Ident.isName_iff.mp h).1
  clear h
  induction hrun with
  | nil => exact opensNoComment_nil
  | cons hunit _ ih => exact (opensNoComment_of_unit? hunit).append ih

theorem opensNoComment_of_isPlain {simple : Simple} (h : simple.IsPlain) :
    OpensNoComment simple.text := by
  cases h with
  | element hname => exact opensNoComment_of_isName hname.isName
  | className hname =>
      exact opensNoComment_cons (by decide) (by decide)
        (opensNoComment_of_isName hname.isName).2
  | id hname =>
      exact opensNoComment_cons (by decide) (by decide)
        (opensNoComment_of_isName hname.isName).2

end Sheet

theorem Ident.not_mem_of_escape? {name text : Text} (h : escape? name = some text)
    (hname : '{' ∉ name) : '{' ∉ text := by
  intro hmem
  rcases mem_of_escape? h hmem with hmem | heq | heq | heq
  · exact hname hmem
  · cases heq
  · cases heq
  · cases heq

/-! ## The text of a list -/

namespace Selector

/-- A property of texts that is kept by putting them side by side holds of the
text of a list if it holds of the conditions and of what stands between them. -/
theorem listText_of_pieces {holds : Text → Prop} (hnil : holds [])
    (happend : ∀ first second, holds first → holds second → holds (first ++ second))
    (hcomma : holds [',', ' ']) (hcombinator : ∀ combinator : Combinator, holds combinator.text)
    {members : List Selector} (h : ∀ member ∈ members, ∀ link ∈ member,
      ∀ simple ∈ link.compound, holds simple.text) : holds (listText members) := by
  have hcompound {compound : Compound} (h : ∀ simple ∈ compound, holds simple.text) :
      holds (Compound.text compound) := by
    induction compound with
    | nil => exact hnil
    | cons simple rest ih =>
        rw [List.forall_mem_cons] at h
        exact happend _ _ h.1 (ih h.2)
  have hselector {selector : Selector} (h : ∀ link ∈ selector,
      ∀ simple ∈ link.compound, holds simple.text) : holds (text selector) := by
    induction selector with
    | nil => exact hnil
    | cons link rest ih =>
        obtain ⟨compound, combinator⟩ := link
        rw [List.forall_mem_cons] at h
        exact happend _ _ (happend _ _ (hcompound h.1) (hcombinator combinator))
          (ih h.2)
  induction members with
  | nil => exact hnil
  | cons selector rest ih =>
      rw [List.forall_mem_cons] at h
      cases rest with
      | nil => exact hselector h.1
      | cons next rest =>
          exact happend _ _ (hselector h.1) (happend _ _ hcomma (ih h.2))

/-- Names alone open no comment. -/
theorem opensNoComment_listText {members : List Selector}
    (h : ∀ member ∈ members, Assembled Simple.IsPlain member) :
    Sheet.OpensNoComment (listText members) :=
  listText_of_pieces Sheet.opensNoComment_nil (fun _ _ => Sheet.OpensNoComment.append)
    (Sheet.opensNoComment_of_not_mem (by decide))
    (fun combinator => by
      cases combinator <;> exact Sheet.opensNoComment_of_not_mem (by decide))
    fun member hmember link hlink simple hsimple =>
      Sheet.opensNoComment_of_isPlain ((h member hmember).pieces link hlink simple hsimple)

theorem not_mem_listText {members : List Selector}
    (h : ∀ member ∈ members, ∀ link ∈ member, ∀ simple ∈ link.compound,
      '{' ∉ simple.text) : '{' ∉ listText members :=
  @listText_of_pieces (fun text => '{' ∉ text) (by simp)
    (fun _ _ hfirst hsecond hmem => (List.mem_append.mp hmem).elim hfirst hsecond)
    (by decide) (fun combinator => by cases combinator <;> decide) members h

theorem intact_of_isPlain {selector : Selector} (h : Assembled Simple.IsPlain selector) :
    Intact selector := by
  rw [intact_iff]
  intro link hlink simple hsimple
  cases h.pieces link hlink simple hsimple <;>
    exact ⟨trivial, by simp [Simple.members]⟩

/-- Without the white space at its edges a list of names weighs what it does. -/
theorem specificities_trim_of_isPlain {members : List Selector} (hne : members ≠ [])
    (h : ∀ member ∈ members, Assembled Simple.IsPlain member ∧ HasTrimmableEnds member) :
    specificities (Text.trim (listText members)) = .ok (members.map specificity) :=
  specificities_trim_of_sealed
    (fun member hmem => ⟨(h member hmem).1.mono fun _ hplain => hplain.isSpelled,
      (h member hmem).2⟩)
    (fun member hmem => intact_of_isPlain (h member hmem).1) hne
    fun member hmem => (h member hmem).1.wellFormed.sealed

end Selector

/-! ## Drafts -/

def Symbols.Braceless (symbols : Symbols) : Prop :=
  ∀ kind, '{' ∉ symbols.get kind

/-- A declaration other than a fragment, without an opening brace in its names. -/
def Declaration.IsPlain (declaration : Declaration) : Prop :=
  declaration.kind ≠ .raw ∧ ∀ name ∈ declaration.names, '{' ∉ name

namespace Draft

/-- A draft without opening braces, also in the name that parts extend. -/
structure Braceless (draft : Draft) : Prop where
  pieces : ∀ link ∈ draft.links, ∀ simple ∈ link.compound, '{' ∉ simple.text
  base : ∀ base ∈ draft.base, '{' ∉ base

theorem forall_mem_mapLast {holds : Link → Prop} {change : Link → Link}
    {links : Selector} (h : ∀ link ∈ links, holds link)
    (hchange : ∀ link, holds link → holds (change link)) :
    ∀ link ∈ links.mapLast change, holds link := by
  intro link hlink
  rcases Selector.mem_mapLast hlink with hlink | ⟨last, hlast, rfl⟩
  · exact h link hlink
  · exact hchange last (h last hlast)

variable {symbols : Symbols} {draft next : Draft} {kind : Kind} {name : Text}

theorem Braceless.push (h : draft.Braceless) (combinator : Combinator)
    {compound : Compound} (hcompound : ∀ simple ∈ compound, '{' ∉ simple.text) :
    ∀ link ∈ draft.links.push combinator compound, ∀ simple ∈ link.compound,
      '{' ∉ simple.text := by
  intro link hlink
  rcases Selector.compound_of_mem_push hlink with ⟨old, hold, heq⟩ | heq
  · rw [heq]
    exact h.pieces old hold
  · rw [heq]
    exact hcompound

/-- One name without an opening brace, under symbols without one. -/
theorem Passes.braceless (h : Passes symbols draft kind name next)
    (hsymbols : symbols.Braceless) (hkind : kind ≠ .raw) (hname : '{' ∉ name)
    (hdraft : draft.Braceless) : next.Braceless := by
  have happend {first second : Text} (hfirst : '{' ∉ first)
      (hsecond : '{' ∉ second) : '{' ∉ first ++ second :=
    fun hmem => (List.mem_append.mp hmem).elim hfirst hsecond
  have hclass {full text : Text} (htext : escaped full = .ok text)
      (hfull : '{' ∉ full) :
      ∀ simple ∈ [Simple.className text], '{' ∉ simple.text := by
    have hbare := Ident.not_mem_of_escape? (escape?_of_escaped htext) hfull
    simpa [Simple.text] using hbare
  have hpush {full text : Text} (htext : escaped full = .ok text)
      (hfull : '{' ∉ full) : ((draft.pushClass text).settle full).Braceless :=
    ⟨hdraft.push .descendant (hclass htext hfull), by rintro _ ⟨⟩; exact hfull⟩
  cases h with
  | component htext => exact hpush htext (happend (hsymbols .component) hname)
  | tweak htext =>
      have htweak := hpush htext (happend (hsymbols .tweak) hname)
      exact ⟨htweak.pieces, htweak.base⟩
  | location htext => exact hpush htext (happend (hsymbols .location) hname)
  | replace hbase _ htext =>
      have hfull := happend (happend (hdraft.base _ hbase) (hsymbols .part)) hname
      exact ⟨forall_mem_mapLast hdraft.pieces fun _ _ => hclass htext hfull,
        by rintro _ ⟨⟩; exact hfull⟩
  | part hbase _ htext =>
      exact hpush htext (happend (happend (hdraft.base _ hbase) (hsymbols .part)) hname)
  | option _ htext =>
      have hoption := hclass htext (happend (hsymbols .option) hname)
      exact ⟨forall_mem_mapLast hdraft.pieces fun _ hlink =>
        List.forall_mem_append.mpr ⟨hlink, hoption⟩, hdraft.base⟩
  | sibling hlast =>
      exact ⟨hdraft.push .adjacent (hdraft.pieces _ (List.mem_of_getLast? hlast)),
        hdraft.base⟩
  | nest => exact absurd rfl hkind
  | glue => exact absurd rfl hkind

end Draft

namespace Place

variable {symbols : Symbols} {place : Place} {names : List Text}
  {named : NamedSelector}

/-- A choice of names for the way to a place takes each name from a node. -/
theorem not_mem_of_mem_namings (hplain : ∀ outer ∈ place.path, outer.IsPlain)
    (hnames : names ∈ place.namings) : ∀ name ∈ names, '{' ∉ name := by
  unfold namings at hnames
  generalize place.path = path at hplain hnames
  induction path generalizing names with
  | nil => simp_all [Declaration.namings]
  | cons outer path ih =>
      rw [List.forall_mem_cons] at hplain
      obtain ⟨name, hname, rest, hrest, rfl⟩ := Declaration.mem_namings_cons.mp hnames
      refine List.forall_mem_cons.mpr ⟨?_, ih hplain.2 hrest⟩
      unfold Declaration.choices at hname
      split at hname
      · rw [List.mem_singleton.mp hname]
        simp
      · exact hplain.1.2 name hname

/-- Without fragments and without opening braces in symbols and names there is none
in what a place yields. -/
theorem Yields.braceless (h : place.Yields symbols names named)
    (hsymbols : symbols.Braceless) (hplain : ∀ outer ∈ place.path, outer.IsPlain)
    (hnames : names ∈ place.namings) :
    ∀ link ∈ named.selector, ∀ simple ∈ link.compound, '{' ∉ simple.text := by
  obtain ⟨draft, hreaches, hfinish⟩ := h
  have hempty : Draft.empty.Braceless := ⟨by simp [Draft.empty], by simp [Draft.empty]⟩
  have hdraft : draft.Braceless := hreaches.preserves Draft.Braceless hempty
    fun outer houter name hname _ _ hdraft hpasses =>
      hpasses.braceless hsymbols (hplain outer houter).1
        (not_mem_of_mem_namings hplain hnames name hname) hdraft
  obtain ⟨scope, hscope, rfl⟩ := exists_of_map_eq_ok hfinish
  have hscope : ∀ simple ∈ scope, '{' ∉ simple.text :=
    Draft.forall_mem_scopeCompound hscope (by decide) fun text htext => by
      have hbare := Ident.not_mem_of_escape? htext (hsymbols .rootId)
      simpa [Simple.text] using hbare
  change ∀ link ∈ draft.scopedLinks scope, _
  unfold Draft.scopedLinks
  split
  · exact hdraft.pieces
  · exact List.forall_mem_cons.mpr ⟨hscope, hdraft.pieces⟩

end Place

end Cascade
