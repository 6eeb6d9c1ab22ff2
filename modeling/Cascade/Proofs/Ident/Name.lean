import Cascade.Proofs.Ident.Lookahead

/-!
# Names

A name is a text that reads as one identifier.  It is closed if a space behind
it stays outside, which fails exactly when the name ends in a hexadecimal escape
that is still open.  `read?_append_iff` says where a name ends, and an open name
followed by a space is the beginning of a longer one.
-/

namespace Cascade.Ident

/-- A text that is one identifier from its first character to its last. -/
def IsName (name : Text) : Prop :=
  read? name = some (name, [])

/-- A name that ends where it ends also in front of a space. -/
def IsClosed (name : Text) : Prop :=
  read? (name ++ [' ']) = some (name, [' '])

instance (name : Text) : Decidable (IsName name) :=
  inferInstanceAs (Decidable (_ = _))

instance (name : Text) : Decidable (IsClosed name) :=
  inferInstanceAs (Decidable (_ = _))

theorem read?_append_iff_run {name rest : Text} :
    read? (name ++ rest) = some (name, rest) ↔ Run rest name ∧ name ≠ [] := by
  rw [read?_eq_some_iff, run_iff]

/-- Where no unit begins, no name does. -/
theorem read?_eq_none_of_unit? {input : Text} (h : unit? input = none) :
    read? input = none := by
  rw [read?, scan_of_unit?_eq_none h]

/-- Where a name character stands, a name is read. -/
theorem exists_read?_of_isNameChar {c : Char} (h : isNameChar c = true)
    (rest : Text) : ∃ name after, read? (c :: rest) = some (name, after) := by
  have hunit : unit? (c :: rest) = some ([c], rest) :=
    unit?_eq_some_iff.mpr (.inr ⟨c, rfl, rfl, h⟩)
  exact ⟨_, _, read?_eq_some_iff.mpr ⟨scan_of_unit? hunit, by simp⟩⟩

theorem isName_iff {name : Text} : IsName name ↔ Run [] name ∧ name ≠ [] := by
  rw [← read?_append_iff_run, List.append_nil]
  rfl

theorem isClosed_iff {name : Text} :
    IsClosed name ↔ Run [' '] name ∧ name ≠ [] :=
  read?_append_iff_run

theorem IsClosed.isName {name : Text} (h : IsClosed name) : IsName name := by
  rw [isClosed_iff] at h
  exact isName_iff.mpr ⟨h.1.congr rfl (by simp), h.2⟩

/-- A name is read in front of every text that neither goes on with it nor
closes its last escape. -/
theorem read?_append_iff {name rest : Text} :
    read? (name ++ rest) = some (name, rest) ↔
      IsName name ∧ unit? rest = none ∧
        (rest.head? = some ' ' → IsClosed name) := by
  rw [read?_append_iff_run, isName_iff]
  constructor
  · rintro ⟨hrun, hne⟩
    refine ⟨⟨hrun.congr rfl (by simp), hne⟩, hrun.unit?_eq_none, ?_⟩
    intro hspace
    exact isClosed_iff.mpr ⟨hrun.congr (unit?_space []) fun _ => hspace, hne⟩
  · rintro ⟨⟨hrun, hne⟩, hstop, hspace⟩
    refine ⟨?_, hne⟩
    by_cases hhead : rest.head? = some ' '
    · exact (isClosed_iff.mp (hspace hhead)).1.congr hstop fun _ => rfl
    · exact hrun.congr hstop (absurd · hhead)

/-- Two names side by side are one name. -/
theorem IsName.append {first second : Text} (hfirst : IsName first)
    (hsecond : IsName second) : IsName (first ++ second) := by
  rw [isName_iff] at hfirst hsecond ⊢
  exact ⟨hfirst.1.append hsecond.1, by simp [hfirst.2]⟩

/-- An open name takes a space along, together with the units that follow. -/
theorem IsName.run_append_space {name rest behind : Text} (hname : IsName name)
    (hopen : ¬ IsClosed name) (hrest : Run behind rest) :
    Run behind (name ++ ' ' :: rest) := by
  obtain ⟨hrun, hne⟩ := isName_iff.mp hname
  rcases hrun.append_space with hstays | htaken
  · exact absurd (isClosed_iff.mpr ⟨hstays [], hne⟩) hopen
  · exact htaken rest behind hrest

/-- The space behind an open name closes it. -/
theorem IsName.isClosed_append_space {name : Text} (hname : IsName name)
    (hopen : ¬ IsClosed name) : IsClosed (name ++ [' ']) :=
  isClosed_iff.mpr
    ⟨hname.run_append_space hopen (.nil (unit?_space [])), by simp⟩

/-- An open name, a space and a second name are one name. -/
theorem IsName.append_space_append {name next : Text} (hname : IsName name)
    (hopen : ¬ IsClosed name) (hnext : IsName next) :
    IsName (name ++ ' ' :: next) :=
  isName_iff.mpr
    ⟨hname.run_append_space hopen (isName_iff.mp hnext).1, by simp⟩

/-- Such a name is closed if its second part is. -/
theorem IsName.isClosed_append_space_append {name next : Text}
    (hname : IsName name) (hopen : ¬ IsClosed name) (hnext : IsClosed next) :
    IsClosed (name ++ ' ' :: next) :=
  isClosed_iff.mpr
    ⟨hname.run_append_space hopen (isClosed_iff.mp hnext).1, by simp⟩

/-- A name starts with a name character or a backslash. -/
theorem IsName.exists_cons {name : Text} (h : IsName name) :
    ∃ c rest, name = c :: rest ∧ (c = '\\' ∨ isNameChar c = true) := by
  obtain ⟨hrun, hne⟩ := isName_iff.mp h
  cases hrun with
  | nil => exact absurd rfl hne
  | cons hunit =>
      rcases unit?_eq_some_iff.mp hunit with ⟨_, tail, _, rfl, _⟩ |
        ⟨c, _, rfl, hc⟩
      · exact ⟨'\\', _, rfl, .inl rfl⟩
      · exact ⟨c, _, rfl, .inr hc⟩

end Cascade.Ident
