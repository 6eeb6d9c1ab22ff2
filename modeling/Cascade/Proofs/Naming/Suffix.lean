import Cascade.Proofs.Ident.Decode
import Cascade.Proofs.Naming.Substitution

/-!
# What a suffix makes of a class

A fragment that is an identifier right behind a parent reference lengthens the last
class of the chain above by the identifier as it is written.  The result is one
identifier.  It stands for the characters of the class followed by those of the
suffix, unless the class ends in a hexadecimal escape that takes in the first digit of
the suffix: a written name closes such an escape with a space, a fragment need not.
-/

namespace Cascade

open Ident (IsName IsShort StartsHex decode)

/-- Only a parent reference with an identifier right behind it reads as one. -/
theorem Selector.ofText_eq_suffix_iff {fragment suffix : Text} :
    ofText fragment = .ok [⟨[.parent, .element suffix], .none⟩] ↔
      Text.trim fragment = '&' :: suffix ∧ IsName suffix := by
  constructor
  · intro h
    have hspells := spells_of_ofText h
    generalize Text.trim fragment = text at hspells
    cases hspells with
    | last _ hcompound =>
        cases hcompound with
        | cons hparent _ hrest =>
            cases hparent
            cases hrest with
            | cons helement _ hnil =>
                cases hnil
                cases helement with
                | element hname => exact ⟨by simp, hname⟩
    | cons _ _ _ _ hrest => exact absurd rfl hrest.ne_nil
  · rintro ⟨htrim, hname⟩
    have hspells : Spells [⟨[.parent, .element suffix], .none⟩] ('&' :: (suffix ++ [])) :=
      .last (List.cons_ne_nil _ _) (.cons .parent nofun
        (.cons (.element hname) (Simple.endsBefore_nil _) .nil))
    have hread := hspells.read Spells.endsBefore_nil (by simp [Delimits])
    rw [List.append_nil, List.append_nil] at hread
    rw [ofText, htrim]
    exact congrArg (whole .selector) hread

namespace Draft

variable {symbols : Symbols} {draft next : Draft} {fragment suffix : Text}

/-- A suffix is written behind the last class, and nothing else changes. -/
theorem Passes.exists_suffix (h : Passes symbols draft .raw fragment next)
    (hread : Selector.ofText fragment = .ok [⟨[.parent, .element suffix], .none⟩]) :
    ∃ front conditions name combinator,
      draft.links = front ++ [⟨conditions ++ [.className name], combinator⟩] ∧
      next.links = front ++ [⟨conditions ++ [.className (name ++ suffix)], .none⟩] := by
  cases h with
  | nest hselector _ hparent _ =>
      cases hread.symm.trans hselector
      cases hparent
  | glue hselector _ _ _ hsplit hextend _ =>
      cases hread.symm.trans hselector
      cases hsplit
      cases hextend with
      | @some front conditions name _ combinator hlinks =>
          refine ⟨front, conditions, name, combinator, hlinks, ?_⟩
          change Selector.mapLast _ (front ++ _) ++ [] = _
          rw [Selector.mapLast_concat, List.append_nil, List.append_nil]

/-- The class at the end of the links is a name, and nothing follows it. -/
theorem Reaches.isName_last {above : List Declaration} {node : Declaration}
    {names : List Text} (h : Reaches symbols .empty (above ++ [node]) names draft)
    {front : Selector} {conditions : Compound} {name : Text} {combinator : Combinator}
    (hlinks : draft.links = front ++ [⟨conditions ++ [.className name], combinator⟩]) :
    IsName name ∧ combinator = .none := by
  have hassembled := h.assembled
  rw [hlinks] at hassembled
  obtain ⟨text, hspells⟩ :=
    hassembled.last.pieces _ (List.mem_singleton_self _) (.className name) (by simp)
  cases hspells with
  | className hname => exact ⟨hname, hassembled.last.linked⟩

end Draft

namespace Place

/-- A selector of a suffix: that of the chain right above, with the suffix behind its
last class. -/
def IsLengthened (table : SymbolTable) (place : Place) (names : List Text)
    (named : NamedSelector) (suffix : Text) : Prop :=
  ∀ upper : Place, place.above = upper.path → ∃ shorter front conditions name,
    (upper.chain names.dropLast).leaves table = .ok [shorter] ∧
    upper.core shorter.selector = front ++ [⟨conditions ++ [.className name], .none⟩] ∧
    place.core named.selector =
      front ++ [⟨conditions ++ [.className (name ++ suffix)], .none⟩] ∧
    IsName name ∧ IsName (name ++ suffix) ∧
    (decode (name ++ suffix) = decode name ++ decode suffix ↔
      ¬(IsShort name ∧ StartsHex suffix))

variable {table : SymbolTable} {place : Place} {names : List Text}
  {named : NamedSelector} {suffix : Text}

theorem Yields.isLengthened (hnames : names ∈ place.namings)
    (h : place.Yields table.current names named) (hkind : place.node.kind = .raw)
    (hfragment : ∀ fragment ∈ names.getLast?, Text.trim fragment = '&' :: suffix)
    (hsuffix : IsName suffix) :
    place.above ≠ [] ∧ place.IsLengthened table names named suffix := by
  obtain ⟨fragment, draft, next, hlast, hreaches, hpasses, hcore⟩ := h.exists_passes
  rw [hlast, List.getLast?_concat] at hfragment
  rw [hkind] at hpasses
  obtain ⟨front, conditions, name, combinator, hdraft, hnext⟩ := hpasses.exists_suffix
    (Selector.ofText_eq_suffix_iff.mpr ⟨hfragment fragment rfl, hsuffix⟩)
  refine ⟨hreaches.links_ne_nil_iff.mp (by simp [hdraft]), fun upper hupper => ?_⟩
  obtain ⟨shorter, hleaves, hyields⟩ := Declaration.exists_leaves_above hnames h hupper
  rw [hupper] at hreaches
  obtain ⟨hname, rfl⟩ := hreaches.isName_last hdraft
  exact ⟨shorter, front, conditions, name, hleaves,
    (hyields.core_eq hreaches).trans hdraft, hcore.trans hnext, hname,
    hname.append hsuffix, hname.decode_append_iff hsuffix⟩

end Place

namespace Declaration

/-- Every suffix, at the rule and at the leaf, lengthens the class above it.  White
space at the edges of a fragment is no part of it. -/
theorem isLengthened_named (table : SymbolTable) (declaration : Declaration) :
    EachNamed table declaration fun place names named =>
      place.node.kind = .raw → ∀ fragment suffix, names.getLast? = some fragment →
        Text.trim fragment = '&' :: suffix → IsName suffix →
        place.above ≠ [] ∧ place.IsLengthened table names named suffix := by
  refine eachNamed_of_yields fun place names named hnames hyields hkind => ?_
  intro fragment suffix hlast htrim hsuffix
  refine hyields.isLengthened hnames hkind ?_ hsuffix
  rw [hlast]
  rintro _ ⟨⟩
  exact htrim

/-- The written name of a digit closes its escape, so a digit can follow. -/
theorem isLengthened_named_digit :
    ∃ outer inner named,
      outer = ⟨.component, [['1']], none, [inner]⟩ ∧
      inner = ⟨.raw, ["&2".toList], some [], []⟩ ∧
      Declaration.rules .initial outer = .ok [⟨[named], []⟩] ∧
      named.text = ".\\31 2".toList ∧ decode "\\31 2".toList = ['1', '2'] ∧
      inner.kind = .raw ∧ Text.trim "&2".toList = '&' :: ['2'] ∧ IsName ['2'] ∧
      Place.IsLengthened .initial ⟨[outer], inner⟩ [['1'], "&2".toList] named ['2'] := by
  have hrules : Declaration.rules .initial ⟨.component, [['1']], none,
      [⟨.raw, ["&2".toList], some [], []⟩]⟩ =
      .ok [⟨[⟨[⟨[.className "\\31 2".toList], .none⟩], ⟨0, 1, 0⟩, []⟩], []⟩] := by
    decide +kernel
  have hall := (isLengthened_named _ _).1 _ hrules
  obtain ⟨hnamed, _⟩ := List.forall₂_cons.mp hall
  have hname : IsName ['2'] := by decide +kernel
  exact ⟨_, _, _, rfl, rfl, hrules, by decide +kernel, by decide +kernel, rfl, rfl, hname,
    ((List.forall₂_cons.mp hnamed).1 rfl _ _ rfl rfl hname).2⟩

/-- The name of a fragment may end in an open escape, which takes the digit in: the
class `\31` stands for `1`, and with the suffix `2` it stands for the one character
with the code point 312. -/
theorem isLengthened_named_short :
    ∃ outer inner shorter named,
      outer = ⟨.raw, [".\\31".toList], none, [inner]⟩ ∧
      inner = ⟨.raw, ["&2".toList], some [], []⟩ ∧
      Declaration.leaves .initial ⟨.raw, [".\\31".toList], none, []⟩ = .ok [shorter] ∧
      shorter.selector = [⟨[.className "\\31".toList], .none⟩] ∧
      Declaration.rules .initial outer = .ok [⟨[named], []⟩] ∧
      named.selector = [⟨[.className "\\312".toList], .none⟩] ∧
      IsName ['2'] ∧ decode "\\312".toList = [Char.ofNat 0x312] ∧
      decode "\\31".toList ++ decode ['2'] = ['1', '2'] ∧
      decode "\\312".toList ≠ decode "\\31".toList ++ decode ['2'] := by
  have hleaves : Declaration.leaves .initial ⟨.raw, [".\\31".toList], none, []⟩ =
      .ok [⟨[⟨[.className "\\31".toList], .none⟩], ⟨0, 1, 0⟩, []⟩] := by
    decide +kernel
  have hrules : Declaration.rules .initial ⟨.raw, [".\\31".toList], none,
      [⟨.raw, ["&2".toList], some [], []⟩]⟩ =
      .ok [⟨[⟨[⟨[.className "\\312".toList], .none⟩], ⟨0, 1, 0⟩, []⟩], []⟩] := by
    decide +kernel
  refine ⟨_, _, _, _, rfl, rfl, hleaves, rfl, hrules, rfl, ?_, ?_, ?_, ?_⟩ <;>
    decide +kernel

end Declaration

end Cascade
