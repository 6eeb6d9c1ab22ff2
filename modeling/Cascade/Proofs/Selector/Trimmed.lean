import Cascade.Proofs.Selector.Count
import Cascade.Proofs.Selector.RoundTrip
import Cascade.Proofs.Selector.Unclosed

/-!
# Lists without white space at their edges

A name may end with a space that closes an escape.  Trimming the text of a list
takes the space away from the last name, and leaves the text of a list with a
shorter name in the same place, which weighs the same.
-/

namespace Cascade

/-- A condition and what is left of it without white space behind it. -/
structure Simple.TrimsEndTo (simple short : Simple) : Prop where
  spelled : short.IsSpelled
  named : short.isNamedElement = simple.isNamedElement
  weight : short.specificity = simple.specificity
  keeps : simple.KeepsArgument → short.KeepsArgument
  members : short.members = simple.members
  text : ∃ spaces, simple.text = short.text ++ spaces ∧
    ∀ c ∈ spaces, Text.isSpace c = true
  edge : ∃ front c, short.text = front ++ [c] ∧ Text.isSpace c = false

def Simple.StartsWithoutSpace (simple : Simple) : Prop :=
  ∃ c rest, simple.text = c :: rest ∧ Text.isSpace c = false

structure Selector.TrimsEndTo (selector short : Selector) : Prop where
  assembled : Assembled Simple.IsSpelled short
  weight : specificity short = specificity selector
  intact : Intact selector → Intact short
  sealed : Sealed selector → Sealed short
  text : ∃ spaces, text selector = text short ++ spaces ∧
    ∀ c ∈ spaces, Text.isSpace c = true
  edge : ∃ front c, Selector.text short = front ++ [c] ∧ Text.isSpace c = false

theorem Simple.trimsEndTo_self {simple : Simple} (hspelled : simple.IsSpelled)
    {front : Text} {c : Char} (htext : simple.text = front ++ [c])
    (hc : Text.isSpace c = false) : simple.TrimsEndTo simple where
  spelled := hspelled
  named := rfl
  weight := rfl
  keeps := fun h => h
  members := rfl
  text := ⟨[], (List.append_nil _).symm, by simp⟩
  edge := ⟨front, c, htext, hc⟩

theorem Ident.IsName.exists_concat {name : Text} (h : Ident.IsName name)
    (htrimmed : Text.IsTrimmed name) :
    ∃ front c, name = front ++ [c] ∧ Text.isSpace c = false := by
  rcases List.eq_nil_or_concat name with rfl | ⟨front, c, rfl⟩
  · exact absurd rfl (isName_iff.mp h).2
  · rw [List.concat_eq_append] at htrimmed ⊢
    exact ⟨front, c, rfl, htrimmed.2 c (by simp)⟩

theorem Simple.trimsEndTo_className {short spaces : Text} (hname : Ident.IsName short)
    (htrimmed : Text.IsTrimmed short) (hspaces : ∀ c ∈ spaces, Text.isSpace c = true) :
    (Simple.className (short ++ spaces)).TrimsEndTo (.className short) where
  spelled := ⟨_, .className hname⟩
  named := rfl
  weight := rfl
  keeps := fun h => h
  members := rfl
  text := ⟨spaces, rfl, hspaces⟩
  edge := by
    obtain ⟨front, c, rfl, hc⟩ := hname.exists_concat htrimmed
    exact ⟨'.' :: front, c, rfl, hc⟩

/-- Whether a condition stands last does not show in front of it. -/
theorem Compound.Joined.replace_last {first : Compound} {simple other : Simple}
    (h : Joined (first ++ [simple]))
    (hother : other.isNamedElement = simple.isNamedElement) :
    Joined (first ++ [other]) := by
  induction first with
  | nil => trivial
  | cons next first ih =>
      cases first with
      | nil => exact ⟨fun hname => hother ▸ h.1 hname, trivial⟩
      | cons after first => exact ⟨h.1, ih h.2⟩

namespace Selector

def first? (selector : Selector) : Option Simple :=
  selector.head?.bind fun link => link.compound.head?

def last? (selector : Selector) : Option Simple :=
  selector.getLast?.bind fun link => link.compound.getLast?

theorem text_concat (links : Selector) (conditions : Compound) (last : Simple) :
    text (links ++ [⟨conditions ++ [last], .none⟩]) =
      text links ++ Compound.text conditions ++ last.text := by
  simp [text_append, text, Compound.text_append, Compound.text, Combinator.text]

variable {selector : Selector}

/-- An assembled selector ends with a condition, behind which no combinator
stands. -/
theorem Assembled.exists_last {holds : Simple → Prop} (h : Assembled holds selector) :
    ∃ links conditions last, selector = links ++ [⟨conditions ++ [last], .none⟩] ∧
      last? selector = some last := by
  obtain ⟨links, ⟨compound, combinator⟩, rfl⟩ := h.exists_concat
  obtain rfl : combinator = .none := h.last.linked
  have hjoined := h.last.joined _ (List.mem_singleton_self _)
  rcases List.eq_nil_or_concat compound with rfl | ⟨conditions, last, rfl⟩
  · exact hjoined.elim
  · rw [List.concat_eq_append]
    exact ⟨links, conditions, last, rfl, by simp [last?]⟩

/-- The text of a selector starts with that of its first condition. -/
theorem Assembled.exists_first {holds : Simple → Prop} (h : Assembled holds selector) :
    ∃ simple rest, first? selector = some simple ∧ holds simple ∧
      text selector = simple.text ++ rest := by
  obtain ⟨⟨compound, combinator⟩, links, rfl⟩ := List.exists_cons_of_ne_nil h.ne_nil
  obtain ⟨simple, conditions, rfl⟩ :=
    List.exists_cons_of_ne_nil (h.joined _ List.mem_cons_self).ne_nil
  refine ⟨simple, Compound.text conditions ++ combinator.text ++ text links, rfl,
    h.pieces _ List.mem_cons_self simple List.mem_cons_self, ?_⟩
  rw [text, Compound.text]
  simp

/-- A selector without white space in front, and with none behind but what can be
taken off its last condition. -/
structure HasTrimmableEnds (selector : Selector) : Prop where
  first : ∀ simple ∈ first? selector, simple.StartsWithoutSpace
  last : ∀ simple ∈ last? selector, ∃ short, simple.TrimsEndTo short

theorem Assembled.mono {holds others : Simple → Prop} {selector : Selector}
    (h : Assembled holds selector) (himp : ∀ simple, holds simple → others simple) :
    Assembled others selector :=
  ⟨h.linked, h.joined, fun link hlink simple hsimple =>
    himp simple (h.pieces link hlink simple hsimple)⟩

/-- A selector is trimmed at its end as its last condition is. -/
theorem Assembled.trimsEndTo (h : Assembled Simple.IsSpelled selector)
    {simple short : Simple} (hlast : last? selector = some simple)
    (htrims : simple.TrimsEndTo short) : ∃ other, selector.TrimsEndTo other := by
  obtain ⟨links, conditions, found, rfl, hfound⟩ := h.exists_last
  obtain rfl : found = simple := Option.some.inj (hfound.symm.trans hlast)
  have hpieces := h.last.pieces _ (List.mem_singleton_self _)
  rw [List.forall_mem_append] at hpieces
  refine ⟨links ++ [⟨conditions ++ [short], .none⟩], ?_, ?_, ?_, ?_, ?_, ?_⟩
  · exact h.replace_last h.last _
      ((h.last.joined _ (List.mem_singleton_self _)).replace_last htrims.named)
      (List.forall_mem_append.mpr
        ⟨hpieces.1, List.forall_mem_singleton.mpr htrims.spelled⟩)
  · simp only [specificity_concat, Compound.specificity_append, Compound.specificity,
      htrims.weight]
  · have hintact (h : found.Intact) : short.Intact :=
      ⟨htrims.keeps h.1, htrims.members ▸ h.2⟩
    rw [intact_iff, intact_iff]
    simp only [List.forall_mem_append, List.forall_mem_singleton]
    exact fun h => ⟨h.1, h.2.1, hintact h.2.2⟩
  · rintro ⟨hlinks, hmembers⟩
    rw [List.forall_mem_append, List.forall_mem_singleton] at hlinks hmembers
    rw [List.forall_mem_append, List.forall_mem_singleton] at hmembers
    refine .intro ?_ ?_
    · exact List.forall_mem_append.mpr ⟨hlinks.1, List.forall_mem_singleton.mpr
        fun hcombinator => absurd rfl hcombinator⟩
    · rw [List.forall_mem_append, List.forall_mem_singleton, List.forall_mem_append,
        List.forall_mem_singleton, htrims.members]
      exact hmembers
  · obtain ⟨spaces, htext, hspaces⟩ := htrims.text
    exact ⟨spaces, by rw [text_concat, text_concat, htext, ← List.append_assoc], hspaces⟩
  · obtain ⟨front, c, htext, hc⟩ := htrims.edge
    exact ⟨_, c, by rw [text_concat, htext, ← List.append_assoc], hc⟩

/-! ## Lists -/

theorem listText_concat (front : List Selector) (member : Selector) :
    listText (front ++ [member]) =
      front.flatMap (fun selector => text selector ++ [',', ' ']) ++ text member := by
  induction front with
  | nil => rfl
  | cons selector rest ih =>
      obtain ⟨next, tail, htail⟩ :=
        List.exists_cons_of_ne_nil (show rest ++ [member] ≠ [] by simp)
      rw [List.cons_append, htail, listText, ← htail, ih]
      simp

/-- Without white space at its edges the text of a list is that of a list whose
last member has lost the white space behind it. -/
theorem trim_listText {front : List Selector} {member short : Selector}
    (htrims : member.TrimsEndTo short)
    (hhead : ∀ c ∈ (listText (front ++ [member])).head?, Text.isSpace c = false) :
    Text.trim (listText (front ++ [member])) = listText (front ++ [short]) := by
  obtain ⟨spaces, htext, hspaces⟩ := htrims.text
  obtain ⟨start, c, hedge, hc⟩ := htrims.edge
  rw [listText_concat, htext, ← List.append_assoc, ← listText_concat] at hhead ⊢
  rw [Text.trim_append_spaces hspaces, Text.trim_eq_self_iff]
  constructor
  · exact fun d hd => hhead d (by rw [List.head?_append, hd]; rfl)
  · rw [listText_concat, hedge, ← List.append_assoc, List.getLast?_concat]
    rintro _ ⟨⟩
    exact hc

theorem exists_listText_cons (member : Selector) (rest : List Selector) :
    ∃ behind, listText (member :: rest) = text member ++ behind := by
  cases rest with
  | nil => exact ⟨[], (List.append_nil _).symm⟩
  | cons next rest => exact ⟨_, rfl⟩

section Weights

variable {members : List Selector} (hassembled : ∀ selector ∈ members,
    Assembled Simple.IsSpelled selector ∧ HasTrimmableEnds selector)
include hassembled

theorem head?_listText : ∀ c ∈ (listText members).head?, Text.isSpace c = false := by
  cases members with
  | nil => simp [listText]
  | cons member rest =>
      obtain ⟨hmember, hends⟩ := hassembled member List.mem_cons_self
      obtain ⟨behind, hlist⟩ := exists_listText_cons member rest
      obtain ⟨simple, tail, hfirst, _, htext⟩ := hmember.exists_first
      obtain ⟨c, start, hstart, hc⟩ := hends.first simple hfirst
      rw [hlist, htext, hstart]
      rintro _ ⟨⟩
      exact hc

variable (hintact : ∀ selector ∈ members, Intact selector) (hne : members ≠ [])
include hintact hne

/-- Trimmed, the text of a list of intact selectors is that of a list which can be
printed and weighs the same: its last member has lost the white space behind it. -/
theorem exists_trim_listText : ∃ others ≠ [],
    Text.trim (listText members) = listText others ∧
      (∀ other ∈ others, Printable other) ∧
      others.map specificity = members.map specificity ∧
      ((∀ selector ∈ members, Sealed selector) → ∀ other ∈ others, Sealed other) := by
  obtain ⟨front, member, rfl⟩ : ∃ front member, members = front ++ [member] :=
    ⟨_, _, (List.dropLast_concat_getLast hne).symm⟩
  have hhead := head?_listText hassembled
  simp only [List.forall_mem_append, List.forall_mem_singleton] at hassembled hintact
  obtain ⟨_, _, simple, _, hlast⟩ := hassembled.2.1.exists_last
  obtain ⟨_, hshort⟩ := hassembled.2.2.last simple hlast
  obtain ⟨short, htrims⟩ := hassembled.2.1.trimsEndTo hlast hshort
  refine ⟨front ++ [short], by simp, trim_listText htrims hhead, ?_, ?_, ?_⟩
  · rw [List.forall_mem_append, List.forall_mem_singleton]
    exact ⟨fun selector hmem =>
        (hassembled.1 selector hmem).1.printable (hintact.1 selector hmem),
      htrims.assembled.printable (htrims.intact hintact.2)⟩
  · simp [htrims.weight]
  · simp only [List.forall_mem_append, List.forall_mem_singleton]
    exact fun hsealed => ⟨hsealed.1, htrims.sealed hsealed.2⟩

/-- Trimmed, the text of intact selectors has weights. -/
theorem exists_specificities_trim :
    ∃ weights, specificities (Text.trim (listText members)) = .ok weights := by
  obtain ⟨others, hothers, htrim, hprintable, _⟩ :=
    exists_trim_listText hassembled hintact hne
  rw [htrim, specificities, listOfText_listText hothers hprintable]
  exact ⟨_, rfl⟩

/-- If no name in front of a combinator is open, they are those of the list. -/
theorem specificities_trim_of_sealed (hsealed : ∀ selector ∈ members, Sealed selector) :
    specificities (Text.trim (listText members)) = .ok (members.map specificity) := by
  obtain ⟨others, hothers, htrim, hprintable, hweights, hkept⟩ :=
    exists_trim_listText hassembled hintact hne
  have hread : listAsRead others = others := listAsRead_eq_self fun other hmem =>
    asRead_of_sealed (hprintable other hmem) (hkept hsealed other hmem)
  rw [htrim, specificities, listOfText_listText hothers hprintable, hread, ← hweights]
  rfl

end Weights

end Selector

end Cascade
