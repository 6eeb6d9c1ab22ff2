import Cascade.Text.Enclosed
import Cascade.Ident.Basic
import Cascade.Selector.Basic

/-!
# Reading a simple selector

A simple selector is recognised by its first character.  The argument of
`:not`, `:is`, `:has` and `:where` is again a list of selectors, read from the
text between the parentheses; whoever reads it is a parameter here, and in the
readers that are built on this one, so that each of them is a plain loop of its
own.
-/

namespace Cascade

abbrev ArgumentReader := Text → Except Fault (List Selector)

namespace Simple

/-- A condition that consists of an identifier behind a mark.  Where none
follows, the fault stands in front of the mark. -/
def readNamed (start : Text) (make : Text → Simple) (input : Text) :
    Except Fault (Simple × Text) :=
  match Ident.read? input with
  | some (name, rest) => .ok (make name, rest)
  | none => .error (.recoverable .name start)

def ofSingleColon (name : Text) : Simple :=
  if Text.isKeyword singleColonElements name then .pseudoElement name
  else .pseudoClass name

/-- A function behind its opening parenthesis.  The parenthesis admits no other
reading, so every fault from here on is committed. -/
def readFunction (argument : ArgumentReader) (name input : Text) :
    Except Fault (Simple × Text) :=
  match Enclosed.groupContent input with
  | (content, ')' :: rest) =>
      if Text.isKeyword listFunctions name then
        (argument content).map fun members =>
          (.selectorFunction name members, rest)
      else .ok (.textFunction name (Text.trim content), rest)
  | (_, rest) => .error (.committed .delimiter rest)

/-- The condition on an attribute that its brackets hold: what stands before
and after the first equals sign, without white space at the edges. -/
def ofBrackets (content : Text) : Simple :=
  match Text.cutAt? '=' content with
  | some (name, value) => .attribute (Text.trim name) (Text.trim value)
  | none => .attribute (Text.trim content) []

/-- Reads one simple selector.  A recoverable fault stands in front of it. -/
def readWith (argument : ArgumentReader) (input : Text) :
    Except Fault (Simple × Text) :=
  match input with
  | '#' :: rest => readNamed input .id rest
  | '.' :: rest => readNamed input .className rest
  | ':' :: ':' :: rest => readNamed input .pseudoElement rest
  | ':' :: rest =>
      match Ident.read? rest with
      | some (name, '(' :: inside) => readFunction argument name inside
      | some (name, after) => .ok (ofSingleColon name, after)
      | none => .error (.recoverable .name input)
  | '&' :: rest => .ok (.parent, rest)
  | '*' :: rest => .ok (.universal, rest)
  | '[' :: rest =>
      match Text.cutAt? ']' rest with
      | some (content, after) => .ok (ofBrackets content, after)
      | none => .error (.recoverable .name input)
  | _ => readNamed input .element input

end Simple

theorem Simple.length_lt_of_readNamed {start input rest : Text}
    {make : Text → Simple} {simple : Simple}
    (h : readNamed start make input = .ok (simple, rest)) :
    rest.length < input.length := by
  unfold readNamed at h
  split at h
  · rename_i name after hname
    cases h
    exact Ident.length_lt_of_read? hname
  · cases h

theorem Simple.length_lt_of_readFunction {argument : ArgumentReader}
    {name input rest : Text} {simple : Simple}
    (h : readFunction argument name input = .ok (simple, rest)) :
    rest.length < input.length := by
  unfold readFunction at h
  split at h
  · rename_i content after hcontent
    have hrest : after = rest := by
      split at h
      · obtain ⟨members, _, hvalue⟩ := exists_of_map_eq_ok h
        exact (Prod.mk.inj hvalue).2
      · cases h
        rfl
    have happend := congrArg List.length (Enclosed.append_of_groupContent input)
    rw [hcontent, hrest] at happend
    simp only [List.length_append, List.length_cons] at happend
    omega
  · cases h

/-- Reading a simple selector uses up at least one character. -/
theorem Simple.length_lt_of_readWith {argument : ArgumentReader}
    {input rest : Text} {simple : Simple}
    (h : readWith argument input = .ok (simple, rest)) :
    rest.length < input.length := by
  unfold readWith at h
  split at h
  · exact Nat.lt_succ_of_lt (Simple.length_lt_of_readNamed h)
  · exact Nat.lt_succ_of_lt (Simple.length_lt_of_readNamed h)
  · exact Nat.lt_succ_of_lt
      (Nat.lt_succ_of_lt (Simple.length_lt_of_readNamed h))
  · split at h
    · rename_i name inside hname
      have hident := Ident.length_lt_of_read? hname
      have hinside := Simple.length_lt_of_readFunction h
      simp only [List.length_cons] at hident ⊢
      omega
    · rename_i name after _ hname
      have hident := Ident.length_lt_of_read? hname
      cases h
      simp only [List.length_cons]
      omega
    · cases h
  · cases h
    simp
  · cases h
    simp
  · split at h
    · rename_i content after hcut
      cases h
      rw [(Text.cutAt?_eq_some_iff.mp hcut).2]
      simp only [List.length_cons, List.length_append]
      omega
    · cases h
  · exact Simple.length_lt_of_readNamed h

end Cascade
