import Cascade.Proofs.Naming.Admission
import Cascade.Proofs.Naming.Core
import Cascade.Proofs.Selector.Unclosed

/-!
# Fragments compose as texts

A fragment is read, taken apart and spliced into the links so far, and what comes out
prints as if only texts had been put together: the text so far stands in the place of
a parent reference, and in front of a fragment without one, behind which a space is
left.  This holds without the scope compound.  A fragment takes the raising element
out of that, and nothing else.
-/

namespace Cascade

namespace Selector

def IsEnded (selector : Selector) : Prop :=
  ∃ front compound, selector = front ++ [⟨compound, .none⟩]

theorem Assembled.isEnded {holds : Simple → Prop} {selector : Selector}
    (h : Assembled holds selector) : IsEnded selector := by
  obtain ⟨front, conditions, last, hselector, _⟩ := h.exists_last
  exact ⟨front, _, hselector⟩

theorem text_singleton (compound : Compound) (combinator : Combinator) :
    text [⟨compound, combinator⟩] = Compound.text compound ++ combinator.text := by
  rw [text, text, List.append_nil]

/-- Conditions and a combinator at the end of a selector stand at the end of its
text. -/
theorem IsEnded.text_mapLast {selector : Selector} (h : IsEnded selector)
    (conditions : Compound) (combinator : Combinator) :
    text (selector.mapLast fun last => ⟨last.compound ++ conditions, combinator⟩) =
      text selector ++ (Compound.text conditions ++ combinator.text) := by
  obtain ⟨front, compound, rfl⟩ := h
  rw [mapLast_concat, text_append, text_append, text_singleton, text_singleton,
    Compound.text_append]
  simp [Combinator.text]

/-- Links behind a descendant combinator are set off by a space. -/
theorem IsEnded.text_descendant {selector : Selector} (h : IsEnded selector)
    (rest : Selector) :
    text (selector.mapLast (fun last => { last with combinator := .descendant }) ++ rest) =
      text selector ++ ' ' :: text rest := by
  obtain ⟨front, compound, rfl⟩ := h
  rw [mapLast_concat, text_append, text_append, text_append, text_singleton,
    text_singleton]
  simp [Combinator.text]

/-- A link pushed behind a descendant combinator, with the links that follow it. -/
theorem push_append (selector : Selector) (first : Link) (rest : Selector) :
    (selector.push .descendant first.compound).mapLast
        (fun last => { last with combinator := first.combinator }) ++ rest =
      selector.mapLast (fun last => { last with combinator := .descendant }) ++
        first :: rest := by
  obtain ⟨compound, combinator⟩ := first
  rw [push, mapLast_concat, List.append_assoc, List.singleton_append]

end Selector

namespace Draft

open Selector (IsEnded)

variable {draft extended : Draft}

/-- A suffix is written behind everything else. -/
theorem Lengthens.text_eq {suffix : Option Text} (h : Lengthens draft suffix extended)
    (hended : IsEnded draft.links) :
    IsEnded extended.links ∧
      Selector.text extended.links = Selector.text draft.links ++ suffix.getD [] := by
  obtain ⟨front, compound, hdraft⟩ := hended
  cases h with
  | none => exact ⟨⟨front, compound, hdraft⟩, (List.append_nil _).symm⟩
  | @some other conditions name suffix combinator hlinks =>
      rw [hlinks] at hdraft ⊢
      obtain ⟨rfl, hlast⟩ := List.append_inj' hdraft rfl
      cases hlast
      refine ⟨⟨other, _, rfl⟩, ?_⟩
      simp [Selector.text_append, Selector.text_singleton, Compound.text_append,
        Compound.text, Simple.text, Combinator.text]

/-- What stands behind the parent reference is written behind the links so far. -/
theorem text_glue {behind conditions : Compound} {suffix : Option Text}
    (hsplit : splitSuffix behind = (suffix, conditions))
    (hextend : Lengthens draft suffix extended) (hended : IsEnded draft.links)
    (combinator : Combinator) (rest : Selector) :
    Selector.text ((extended.appendConditions conditions combinator).appendLinks rest).links =
      Selector.text draft.links ++
        (Compound.text behind ++ combinator.text ++ Selector.text rest) := by
  obtain ⟨hextended, htext⟩ := hextend.text_eq hended
  have hbehind : Compound.text behind = suffix.getD [] ++ Compound.text conditions := by
    rw [splitSuffix_eq hsplit, Compound.text_append]
    cases suffix <;> simp [Compound.text, Simple.text]
  calc
    Selector.text (extended.links.mapLast _ ++ rest)
      = Selector.text extended.links ++ (Compound.text conditions ++ combinator.text) ++
          Selector.text rest := by rw [Selector.text_append, hextended.text_mapLast]
    _ = _ := by simp only [htext, hbehind, List.append_assoc]

end Draft

namespace Place

open Draft (Reaches Passes)

def coreText (place : Place) (named : NamedSelector) : Text :=
  Selector.text (place.core named.selector)

/-- The text of a selector is made of that of the chain that ends right above its
place, if something is above. -/
def Continues (table : SymbolTable) (place : Place) (names : List Text)
    (named : NamedSelector) (continued : Text → Text) : Prop :=
  ∀ upper : Place, place.above = upper.path →
    ∃ shorter, (upper.chain names.dropLast).leaves table = .ok [shorter] ∧
      place.coreText named = continued (upper.coreText shorter)

/-- A selector of a fragment, put together as texts are. -/
structure IsSubstituted (table : SymbolTable) (place : Place) (names : List Text)
    (named : NamedSelector) : Prop where
  /-- With a parent reference in its first compound a fragment starts with it, and the
  text so far takes its place; otherwise the fragment stands behind the text so far. -/
  text : ∃ fragment first rest, names.getLast? = some fragment ∧
    Selector.ofText fragment = .ok (first :: rest) ∧
    if Compound.hasParent first.compound then
      place.above ≠ [] ∧ ∃ tail, Selector.text (first :: rest) = '&' :: tail ∧
        place.Continues table names named (· ++ tail)
    else
      (place.above = [] → place.coreText named = Selector.text (first :: rest)) ∧
        place.Continues table names named (· ++ ' ' :: Selector.text (first :: rest))
  /-- The scope compound is the id of the root, and is there for tweaks only. -/
  scope : ∃ root,
    (place.crosses .tweak = true → Ident.escape? table.current.rootId = some root) ∧
    named.selector = (if place.crosses .tweak then [⟨[.id root], .descendant⟩] else []) ++
      place.core named.selector ∧
    named.text = (if place.crosses .tweak then '#' :: root ++ [' '] else []) ++
      place.coreText named

variable {table : SymbolTable} {place : Place} {names : List Text}
  {named : NamedSelector}

theorem lead_of_crosses_raw (hraw : place.crosses .raw = true) (root : Text) :
    place.lead root =
      if place.crosses .tweak then [⟨[.id root], .descendant⟩] else [] := by
  unfold lead scope
  rw [hraw]
  cases place.crosses .option <;> cases place.crosses .tweak <;> rfl

/-- The text of the chain above is that of the draft that the last name is applied to. -/
theorem Yields.continues (hnames : names ∈ place.namings)
    (h : place.Yields table.current names named) {draft : Draft}
    (hreaches : Reaches table.current .empty place.above names.dropLast draft)
    {continued : Text → Text} (htext : Selector.IsEnded draft.links →
      place.coreText named = continued (Selector.text draft.links)) :
    place.Continues table names named continued := by
  intro upper hupper
  obtain ⟨shorter, hleaves, hyields⟩ := Declaration.exists_leaves_above hnames h hupper
  rw [hupper] at hreaches
  refine ⟨shorter, hleaves, ?_⟩
  rw [htext hreaches.assembled.isEnded, coreText, hyields.core_eq hreaches]

/-- A fragment of what a place yields is put together as texts are. -/
theorem Yields.isSubstituted (hnames : names ∈ place.namings)
    (h : place.Yields table.current names named) (hkind : place.node.kind = .raw) :
    place.IsSubstituted table names named := by
  obtain ⟨fragment, draft, next, hlast, hreaches, hpasses, hcore⟩ := h.exists_passes
  have hroot : draft.links ≠ [] ↔ place.above ≠ [] := hreaches.links_ne_nil_iff
  rw [hkind] at hpasses
  constructor
  · have hfragment : names.getLast? = some fragment := by
      rw [hlast, List.getLast?_concat]
    cases hpasses with
    | @nest _ first rest hselector _ hparent _ =>
        refine ⟨fragment, first, rest, hfragment, hselector, ?_⟩
        have hlinks : place.core named.selector =
            draft.links.mapLast (fun last => { last with combinator := .descendant }) ++
              first :: rest := hcore.trans (Selector.push_append _ _ _)
        rw [hparent, if_neg Bool.false_ne_true]
        constructor
        · intro habove
          have hnil : draft.links = [] := by simpa [habove] using hroot
          rw [coreText, hlinks, hnil]
          rfl
        · refine h.continues hnames hreaches fun hended => ?_
          rw [coreText, hlinks, hended.text_descendant]
    | @glue _ behind conditions combinator suffix rest extended hselector _ hlinks _
        hsplit hextend _ =>
        refine ⟨fragment, _, rest, hfragment, hselector, ?_⟩
        rw [Draft.hasParent_cons_parent, if_pos rfl]
        refine ⟨hroot.mp hlinks,
          Compound.text behind ++ combinator.text ++ Selector.text rest, rfl, ?_⟩
        refine h.continues hnames hreaches fun hended => ?_
        rw [coreText, hcore]
        exact Draft.text_glue hsplit hextend hended combinator rest
  · have hraw : place.crosses .raw = true := by
      simp [crosses, Declaration.anyOfKind, path, hkind]
    obtain ⟨root, hescape, hselector⟩ := h.exists_lead_core
    rw [lead_of_crosses_raw hraw] at hselector
    refine ⟨root, hescape, hselector, ?_⟩
    calc
      named.text = Selector.text (_ ++ place.core named.selector) :=
          congrArg Selector.text hselector
      _ = _ := by
          rw [Selector.text_append, coreText]
          cases place.crosses .tweak <;>
            simp [Selector.text, Compound.text, Simple.text, Combinator.text]

end Place

namespace Declaration

/-- At every fragment, the selectors of the rule and of the leaf are put together as
texts are. -/
theorem isSubstituted_named (table : SymbolTable) (declaration : Declaration) :
    EachNamed table declaration fun place names named =>
      place.node.kind = .raw → place.IsSubstituted table names named :=
  eachNamed_of_yields fun _ _ _ hnames hyields => hyields.isSubstituted hnames

/-- A fragment that continues an element and one below it, both with a tweak and an
option above them. -/
theorem isSubstituted_named_tweak :
    ∃ outer option glued nested first second,
      outer = ⟨.tweak, [['t']], none, [option]⟩ ∧
      option = ⟨.option, [['o']], none, [glued, nested]⟩ ∧
      glued = ⟨.raw, ["&-x:hover>p".toList], some [], []⟩ ∧
      nested = ⟨.raw, ["p + q".toList], some [], []⟩ ∧
      Declaration.rules .initial outer = .ok [⟨[first], []⟩, ⟨[second], []⟩] ∧
      first.text = "#app .\\+t.\\--o-x:hover > p".toList ∧
      second.text = "#app .\\+t.\\--o p + q".toList ∧
      glued.kind = .raw ∧ nested.kind = .raw ∧
      Place.IsSubstituted .initial ⟨[outer, option], glued⟩
        [['t'], ['o'], "&-x:hover>p".toList] first ∧
      Place.IsSubstituted .initial ⟨[outer, option], nested⟩
        [['t'], ['o'], "p + q".toList] second := by
  have hrules : Declaration.rules .initial ⟨.tweak, [['t']], none,
      [⟨.option, [['o']], none, [⟨.raw, ["&-x:hover>p".toList], some [], []⟩,
        ⟨.raw, ["p + q".toList], some [], []⟩]⟩]⟩ =
      .ok [⟨[⟨[⟨[.id "app".toList], .descendant⟩,
          ⟨[.className "\\+t".toList, .className "\\--o-x".toList,
            .pseudoClass "hover".toList], .child⟩,
          ⟨[.element ['p']], .none⟩], ⟨1, 3, 1⟩, []⟩], []⟩,
        ⟨[⟨[⟨[.id "app".toList], .descendant⟩,
          ⟨[.className "\\+t".toList, .className "\\--o".toList], .descendant⟩,
          ⟨[.element ['p']], .adjacent⟩, ⟨[.element ['q']], .none⟩],
          ⟨1, 2, 2⟩, []⟩], []⟩] := by
    decide +kernel
  have hall := (isSubstituted_named _ _).1 _ hrules
  obtain ⟨hfirst, hrest⟩ := List.forall₂_cons.mp hall
  obtain ⟨hsecond, _⟩ := List.forall₂_cons.mp hrest
  exact ⟨_, _, _, _, _, _, rfl, rfl, rfl, rfl, hrules, by decide +kernel,
    by decide +kernel, rfl, rfl, (List.forall₂_cons.mp hfirst).1 rfl,
    (List.forall₂_cons.mp hsecond).1 rfl⟩

end Declaration

end Cascade
