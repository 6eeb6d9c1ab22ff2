import Cascade.Proofs.Selector.Progress
import Cascade.Proofs.Sheet.Block

/-!
# Every reader advances

The readers of a stylesheet join those of selectors: a block uses up its two braces, and
the loops over a body use up a string, a group or a character in each turn.  So all
readers leave a shorter end of their text, no repetition stalls, every loop that goes on
has less in front of it, and arguments are read from shorter and shorter texts.
-/

namespace Cascade

variable {input rest : Text}

namespace Sheet

/-! ## Bodies and declarations -/

/-- One turn of a body or a declaration: a string, a group, or a run of characters that
neither open one nor are the mark. -/
def bodyTurn? (mark : Char) (input : Text) : Option (Text × Text) :=
  (Enclosed.enclosed? input).or (Text.run? (fun c => c != mark && !isOpener c) input)

theorem isTurn_enclosed?_upTo (mark : Char) : IsTurn Enclosed.enclosed? (upTo mark) where
  append := Enclosed.append_of_enclosed?
  ne_nil h := ne_nil_of_append (Enclosed.append_of_enclosed? h)
    (Enclosed.length_lt_of_enclosed? h)
  continues := upTo_of_enclosed

theorem isTurn_bodyTurn? (mark : Char) : IsTurn (bodyTurn? mark) (upTo mark) := by
  have hinside : TakesChars (fun c => c != mark && !isOpener c) (upTo mark) := by
    intro c rest hc
    simp only [Bool.and_eq_true, bne_iff_ne, Bool.not_eq_true'] at hc
    rw [upTo_cons (enclosed?_eq_none hc.2 rest), if_neg (by simp [hc])]
  exact (isTurn_enclosed?_upTo mark).or hinside.isTurn_run?

theorem collects_upTo (mark : Char) : Collects (bodyTurn? mark) (upTo mark) := by
  refine (isTurn_bodyTurn? mark).collects fun {input} h => ?_
  obtain ⟨henclosed, hrun⟩ := Option.or_eq_none_iff.mp h
  cases input with
  | nil => exact upTo_nil mark
  | cons c rest =>
      have hc := Text.run?_eq_none hrun c rfl
      simp only [Bool.and_eq_false_iff, bne_eq_false_iff_eq, Bool.not_eq_false'] at hc
      rw [upTo_cons henclosed, if_pos (by simpa using hc)]

/-- One turn of the loop that splits a body: what it takes as a declaration, and what
it leaves.  A semicolon is dropped, and where a string or a group is not closed the
declaration is all that is left. -/
def cut (body : Text) : Text × Text :=
  match upTo ';' body with
  | (piece, []) => (piece, [])
  | (piece, c :: rest) => if c = ';' then (piece, rest) else (body, [])

theorem isBehind_cut {body : Text} (h : body ≠ []) : IsBehind (cut body).2 body := by
  have happend := append_of_upTo ';' body
  have hend : IsBehind [] body := ⟨List.nil_suffix, List.length_pos_iff.mpr h⟩
  unfold cut
  split
  · exact hend
  · rename_i piece c rest hpiece
    rw [hpiece] at happend
    split
    · have hcut : piece ++ [c] ++ rest = body := by
        rw [← happend, List.append_assoc]
        rfl
      exact isBehind_of_append hcut (by simp)
    · exact hend

theorem pieces_eq_cut (body : Text) :
    (pieces body = [(cut body).1] ∧ (cut body).2 = []) ∨
      pieces body = (cut body).1 :: pieces (cut body).2 := by
  unfold cut
  rw [pieces.eq_def]
  split
  · rename_i piece hpiece
    rw [hpiece]
    exact .inl ⟨rfl, rfl⟩
  · rename_i piece c rest hpiece
    rw [hpiece]
    dsimp only
    split
    · exact .inr rfl
    · exact .inl ⟨rfl, rfl⟩

/-- A turn yields its declaration, unless it is empty, and the loop goes on with what
the turn leaves. -/
theorem splitDeclarations_cut (body : Text) :
    splitDeclarations body =
      ([Text.trim (cut body).1].filter fun declaration => !declaration.isEmpty) ++
        splitDeclarations (cut body).2 := by
  rcases pieces_eq_cut body with ⟨hlast, hend⟩ | hnext
  · rw [hend, splitDeclarations_nil, List.append_nil, splitDeclarations, hlast]
    rfl
  · rw [splitDeclarations, hnext, List.map_cons, ← List.singleton_append, List.filter_append]
    rfl

end Sheet

namespace Block

/-! ## Blocks -/

theorem advances_read : Advances Block.read := by
  intro input block rest h
  obtain ⟨front, inside, _, _, hinput, _⟩ := read_eq_ok_iff.mp h
  refine ⟨⟨front ++ '{' :: (inside ++ ['}']), ?_⟩, length_lt_of_read h⟩
  rw [hinput]
  simp

theorem severity_of_read {fault : Fault} (h : read input = .error fault) :
    fault.severity = .recoverable := by
  simp only [read] at h
  split at h
  · cases h; rfl
  · split at h
    · cases h
    · cases h; rfl

theorem repeats_readRun : Repeats Block.read fun input => .ok (readRun input) := by
  refine advances_read.repeats (fun h => ?_) (fun h => ?_)
  · rw [readRun_of_ok h]
    rfl
  · rw [readRun_of_error h, severity_of_read h]

end Block

/-! ## Main result -/

/-- Whatever is read, a shorter end of the text is left. -/
structure ReadersAdvance : Prop where
  name : Advances Ident.read
  string : Advances Enclosed.readString
  group : Advances Enclosed.readGroup
  simple : Advances Simple.read
  compound : Advances Compound.read
  selector : Advances Selector.read
  list : Advances Selector.readList
  block : Advances Block.read

/-- Every loop that takes turns with a reader is a repetition that does not stall. -/
structure RepetitionsEnd : Prop where
  /-- An identifier takes one turn before its repetition begins. -/
  first (input : Text) : Ident.read input =
    match Ident.nameTurn? input with
    | none => .error (.recoverable .name input)
    | some (piece, rest) => .ok (piece ++ (Ident.scan rest).1, (Ident.scan rest).2)
  names : Collects Ident.nameTurn? Ident.scan
  strings (quote : Char) : Enclosed.isQuote quote = true →
    Collects (Enclosed.quotedTurn? quote) (Enclosed.stringContent quote)
  groups : Collects Enclosed.groupTurn? Enclosed.groupContent
  bodies : Collects (Sheet.bodyTurn? '}') (Sheet.upTo '}')
  declarations : Collects (Sheet.bodyTurn? ';') (Sheet.upTo ';')
  conditions : Repeats Simple.read (Compound.readTailWith Selector.readArgument)
  members : Repeats Selector.readMember (Selector.readMembersWith Selector.readArgument)
  blocks : Repeats Block.read fun input => .ok (Block.readRun input)

/-- The two loops that are no repetitions go on with a shorter end of their text. -/
structure LoopsAdvance : Prop where
  link : Advances (.ofOption Selector.nextLink?)
  links (compound : Compound) (input : Text) :
    Selector.readLinksWith Selector.readArgument compound input =
      match Selector.nextLink? input with
      | none => ([⟨compound, .none⟩], input)
      | some ((combinator, next), rest) =>
          (⟨compound, combinator⟩ ::
              (Selector.readLinksWith Selector.readArgument next rest).1,
            (Selector.readLinksWith Selector.readArgument next rest).2)
  declaration (body : Text) : body ≠ [] → IsBehind (Sheet.cut body).2 body
  declarations (body : Text) : Sheet.splitDeclarations body =
    if body = [] then []
    else ([Text.trim (Sheet.cut body).1].filter fun declaration => !declaration.isEmpty) ++
      Sheet.splitDeclarations (Sheet.cut body).2

theorem readers_advance : ReadersAdvance where
  name := Ident.advances_read
  string := Enclosed.advances_readString
  group := Enclosed.advances_readGroup
  simple := Simple.advances_read
  compound := Compound.advances_read
  selector := Selector.advances_read
  list := Selector.advances_readList
  block := Block.advances_read

theorem repetitions_end : RepetitionsEnd where
  first := Ident.read_eq_nameTurn?
  names := Ident.collects_scan
  strings _ := Enclosed.collects_stringContent
  groups := Enclosed.collects_groupContent
  bodies := Sheet.collects_upTo '}'
  declarations := Sheet.collects_upTo ';'
  conditions := Compound.repeats_readTail
  members := Selector.repeats_readMembers
  blocks := Block.repeats_readRun

theorem loops_advance : LoopsAdvance where
  link := Selector.advances_nextLink?
  links := Selector.readLinks_eq
  declaration _ := Sheet.isBehind_cut
  declarations body := by
    split
    · rename_i hbody
      rw [hbody, Sheet.splitDeclarations_nil]
    · exact Sheet.splitDeclarations_cut body

/-- Reading always comes to an end, since every reader advances: no repetition stalls,
the other loops go on with less text in front of them, and the recursion into arguments
goes on with shorter texts. -/
theorem every_reader_advances :
    ReadersAdvance ∧ RepetitionsEnd ∧ LoopsAdvance ∧ Selector.ArgumentsShrink :=
  ⟨readers_advance, repetitions_end, loops_advance, Selector.arguments_shrink⟩

end Cascade
