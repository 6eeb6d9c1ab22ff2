import Cascade.Proofs.Sheet.Comment
import Cascade.Sheet.Reader

/-!
# Joints

A text is made of characters and comments, and the last comment need not be closed.
What is left without the comments is joined, and a slash and a star that were kept apart
by nothing but comments open a comment again.  Nothing else can open one: it takes a
slash right in front of a comment and a star right behind one.
-/

namespace Cascade.Sheet

variable {c : Char} {text rest front behind inside comment : Text} {comments : List Text}

/-! ## Comments -/

/-- A text in which no comment closes. -/
def IsOpen (inside : Text) : Prop :=
  ¬ ['*', '/'] <:+: inside

/-- A slash and a star, and everything up to the first star and slash behind them. -/
def IsComment (comment : Text) : Prop :=
  ∃ inside, IsOpen inside ∧ comment = '/' :: '*' :: (inside ++ ['*', '/'])

theorem isOpen_nil : IsOpen [] := by
  unfold IsOpen
  decide

theorem isOpen_cons_iff :
    IsOpen (c :: inside) ↔ ¬ (c = '*' ∧ inside.head? = some '/') ∧ IsOpen inside := by
  have hhead : ['*', '/'] <+: c :: inside ↔ c = '*' ∧ inside.head? = some '/' := by
    cases inside <;> simp [eq_comm]
  rw [IsOpen, List.infix_cons_iff, hhead, not_or, IsOpen]

/-- Behind the text of a comment only its end is looked for. -/
theorem skipComment_append (h : IsOpen inside) (rest : Text) :
    skipComment (inside ++ '*' :: '/' :: rest) = stripComments rest := by
  induction inside with
  | nil => exact skipComment_close rest
  | cons c inside ih =>
      obtain ⟨hclose, hinside⟩ := isOpen_cons_iff.mp h
      rw [List.cons_append, skipComment_cons (head?_append_ne hclose (by simp)), ih hinside]

/-- A comment is closed where it can be, or takes everything along. -/
theorem exists_comment_or_open (text : Text) :
    (∃ inside rest, IsOpen inside ∧ text = inside ++ '*' :: '/' :: rest) ∨
      skipComment text = [] := by
  induction text with
  | nil => exact .inr (by rw [skipComment])
  | cons c text ih =>
      by_cases hclose : c = '*' ∧ text.head? = some '/'
      · obtain ⟨rfl, hhead⟩ := hclose
        obtain ⟨rest, rfl⟩ := List.head?_eq_some_iff.mp hhead
        exact .inl ⟨[], rest, isOpen_nil, rfl⟩
      · rw [skipComment_cons hclose]
        refine ih.imp_left ?_
        rintro ⟨inside, rest, hinside, rfl⟩
        refine ⟨c :: inside, rest, isOpen_cons_iff.mpr ⟨?_, hinside⟩, rfl⟩
        exact fun ⟨hstar, hhead⟩ => hclose ⟨hstar, by simp [hhead]⟩

theorem stripComments_comment (h : IsComment comment) (rest : Text) :
    stripComments (comment ++ rest) = stripComments rest := by
  obtain ⟨inside, hinside, rfl⟩ := h
  have hskip := skipComment_append hinside rest
  rw [← stripComments_open] at hskip
  simpa using hskip

theorem stripComments_comments (h : ∀ comment ∈ comments, IsComment comment)
    (rest : Text) : stripComments (comments.flatten ++ rest) = stripComments rest := by
  induction comments with
  | nil => rfl
  | cons comment comments ih =>
      rw [List.forall_mem_cons] at h
      rw [List.flatten_cons, List.append_assoc, stripComments_comment h.1, ih h.2]

/-- A text is taken apart into characters and comments. -/
theorem comment_induction {motive : Text → Prop} (nil : motive [])
    (char : ∀ c rest, ¬ (c = '/' ∧ rest.head? = some '*') → motive rest → motive (c :: rest))
    (comment : ∀ comment rest, IsComment comment → motive rest → motive (comment ++ rest))
    (unclosed : ∀ rest, stripComments rest = [] → motive rest) (text : Text) :
    motive text := by
  induction hlength : text.length using Nat.strongRecOn generalizing text with
  | ind length ih =>
      subst hlength
      cases text with
      | nil => exact nil
      | cons c text =>
          by_cases hopen : c = '/' ∧ text.head? = some '*'
          · obtain ⟨rfl, hhead⟩ := hopen
            obtain ⟨tail, rfl⟩ := List.head?_eq_some_iff.mp hhead
            rcases exists_comment_or_open tail with ⟨inside, rest, hinside, rfl⟩ | hnone
            · have hrest := comment _ rest ⟨inside, hinside, rfl⟩
                (ih rest.length (by simp; omega) rest rfl)
              simpa using hrest
            · exact unclosed _ ((stripComments_open tail).trans hnone)
          · exact char c text hopen (ih text.length (by simp) text rfl)

/-! ## Joints -/

/-- A text of characters and closed comments. -/
inductive ClosesComments : Text → Prop
  | nil : ClosesComments []
  | char {c : Char} {rest : Text} : ¬ (c = '/' ∧ rest.head? = some '*') →
      ClosesComments rest → ClosesComments (c :: rest)
  | comment {comment rest : Text} : IsComment comment → ClosesComments rest →
      ClosesComments (comment ++ rest)

theorem ClosesComments.stripComments_append (h : ClosesComments front)
    (hbehind : behind.head? ≠ some '*') :
    stripComments (front ++ behind) = stripComments front ++ stripComments behind := by
  induction h with
  | nil => rw [List.nil_append, stripComments_nil, List.nil_append]
  | @char c rest hopen _ ih =>
      rw [List.cons_append, stripComments_cons hopen,
        stripComments_cons (head?_append_ne hopen hbehind), ih, List.cons_append]
  | comment hcomment _ ih =>
      rw [List.append_assoc, stripComments_comment hcomment, stripComments_comment hcomment, ih]

/-- A slash and a star of a text, outside its comments, with nothing but comments between
them. -/
structure IsJoint (text front : Text) (comments : List Text) (behind : Text) : Prop where
  text_eq : text = front ++ '/' :: (comments.flatten ++ '*' :: behind)
  closed : ClosesComments front
  comments_ne_nil : comments ≠ []
  isComment : ∀ comment ∈ comments, IsComment comment

/-- What stands first without comments stands behind nothing but comments. -/
theorem exists_comments_of_head? (h : (stripComments text).head? = some c) :
    ∃ (comments : List Text) (behind : Text), text = comments.flatten ++ c :: behind ∧
      ∀ comment ∈ comments, IsComment comment := by
  induction text using comment_induction with
  | nil => simp [stripComments_nil] at h
  | char d rest hopen _ =>
      rw [stripComments_cons hopen] at h
      obtain rfl := Option.some.inj h
      exact ⟨[], rest, rfl, by simp⟩
  | comment comment rest hcomment ih =>
      rw [stripComments_comment hcomment] at h
      obtain ⟨comments, behind, rfl, hcomments⟩ := ih h
      exact ⟨comment :: comments, behind, by simp,
        List.forall_mem_cons.mpr ⟨hcomment, hcomments⟩⟩
  | unclosed rest hnone => simp [hnone] at h

theorem exists_isJoint (h : HasComment (stripComments text)) :
    ∃ front comments behind, IsJoint text front comments behind := by
  induction text using comment_induction with
  | nil =>
      rw [stripComments_nil] at h
      exact absurd h opensNoComment_nil.2
  | char c rest hopen ih =>
      rw [stripComments_cons hopen, hasComment_cons_iff] at h
      rcases h with ⟨rfl, hhead⟩ | hrest
      · obtain ⟨comments, behind, rfl, hcomments⟩ := exists_comments_of_head? hhead
        refine ⟨[], comments, behind, rfl, .nil, ?_, hcomments⟩
        rintro rfl
        exact hopen ⟨rfl, rfl⟩
      · obtain ⟨front, comments, behind, rfl, hclear, hne, hcomments⟩ := ih hrest
        refine ⟨c :: front, comments, behind, rfl, .char ?_ hclear, hne, hcomments⟩
        rintro ⟨rfl, hhead⟩
        exact hopen ⟨rfl, by simp [hhead]⟩
  | comment comment rest hcomment ih =>
      rw [stripComments_comment hcomment] at h
      obtain ⟨front, comments, behind, rfl, hclear, hne, hcomments⟩ := ih h
      exact ⟨comment ++ front, comments, behind, by simp, .comment hcomment hclear, hne,
        hcomments⟩
  | unclosed rest hnone =>
      rw [hnone] at h
      exact absurd h opensNoComment_nil.2

namespace IsJoint

/-- The slash of a joint stands right in front of a comment. -/
theorem infix_slash (h : IsJoint text front comments behind) :
    ['/', '/', '*'] <:+: text := by
  obtain ⟨comment, others, rfl⟩ := List.exists_cons_of_ne_nil h.comments_ne_nil
  obtain ⟨inside, _, rfl⟩ := h.isComment _ List.mem_cons_self
  exact ⟨front, inside ++ ['*', '/'] ++ others.flatten ++ '*' :: behind, by simp [h.text_eq]⟩

/-- The star of a joint stands right behind a comment. -/
theorem infix_star (h : IsJoint text front comments behind) :
    ['*', '/', '*'] <:+: text := by
  obtain ⟨others, comment, hlast⟩ := List.eq_nil_or_concat comments |>.resolve_left
    h.comments_ne_nil
  obtain ⟨inside, _, rfl⟩ := h.isComment comment (by simp [hlast])
  exact ⟨front ++ '/' :: others.flatten ++ '/' :: '*' :: inside, behind, by
    simp [h.text_eq, hlast]⟩

theorem hasComment (h : IsJoint text front comments behind) :
    HasComment (stripComments text) := by
  have hslash : ¬ ('/' = '/' ∧ (comments.flatten ++ '*' :: behind).head? = some '*') := by
    obtain ⟨comment, others, rfl⟩ := List.exists_cons_of_ne_nil h.comments_ne_nil
    obtain ⟨inside, _, rfl⟩ := h.isComment _ List.mem_cons_self
    simp
  rw [h.text_eq, h.closed.stripComments_append (by simp), stripComments_cons hslash,
    stripComments_comments h.isComment, stripComments_cons (by simp)]
  exact ⟨stripComments front, stripComments behind, by simp⟩

end IsJoint

/-- Taking comments out twice is the same as once exactly if no comment is left, and one
is left exactly if there is a joint.  So none is left unless a slash stands right in front
of a comment, and a star right behind one. -/
theorem stripComments_stripComments_iff (text : Text) :
    (stripComments (stripComments text) = stripComments text ↔
      ¬ HasComment (stripComments text)) ∧
    (HasComment (stripComments text) ↔
      ∃ front comments behind, IsJoint text front comments behind) ∧
    (HasComment (stripComments text) →
      ['/', '/', '*'] <:+: text ∧ ['*', '/', '*'] <:+: text) := by
  refine ⟨⟨fun hsame hcomment => ?_, stripComments_eq_self⟩,
    ⟨exists_isJoint, fun ⟨_, _, _, hjoint⟩ => hjoint.hasComment⟩, fun hcomment => ?_⟩
  · exact absurd (congrArg (List.count '*') hsame) (count_stripComments_lt hcomment).ne
  · obtain ⟨_, _, _, hjoint⟩ := exists_isJoint hcomment
    exact ⟨hjoint.infix_slash, hjoint.infix_star⟩

/-- Two comments in a row between a slash and a star. -/
theorem stripComments_stripComments_iff_row :
    HasComment (stripComments "a//*b*//**/*c".toList) ∧
      (∃ front comments behind, IsJoint "a//*b*//**/*c".toList front comments behind) ∧
      ['/', '/', '*'] <:+: "a//*b*//**/*c".toList ∧
      ['*', '/', '*'] <:+: "a//*b*//**/*c".toList := by
  obtain ⟨_, hjoint, hmarks⟩ := stripComments_stripComments_iff "a//*b*//**/*c".toList
  have hcomment : HasComment (stripComments "a//*b*//**/*c".toList) := by decide +kernel
  exact ⟨hcomment, hjoint.mp hcomment, hmarks hcomment⟩

/-- A comment is left where another one was taken out, and from there it gets into the
body of a rule. -/
theorem hasComment_stripComments_joint :
    stripComments "a//**/*b*/c".toList = "a/*b*/c".toList ∧
      HasComment (stripComments "a//**/*b*/c".toList) ∧
      stripComments (stripComments "a//**/*b*/c".toList) = "ac".toList ∧
      readRules (['a', '{'] ++ "top: 1//**/*b*/".toList ++ ['}']) =
        .ok [⟨['a'], ⟨0, 0, 0, 1⟩, "top: 1/*b*/".toList⟩] := by
  decide +kernel

end Cascade.Sheet
