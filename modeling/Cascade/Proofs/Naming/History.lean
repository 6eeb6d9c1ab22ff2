import Cascade.Proofs.Lists
import Cascade.Stylesheet.Workspace

/-!
# The history of a table

Whatever is done to a table, the symbol of a kind is decided by the last change that
concerns the kind.  A change that sets or resets it says by itself what the symbol is.
A return to the baseline goes back to the last save, and no further than to the last
time when everything was reset, which forgets what was saved before.
-/

namespace Cascade

namespace SymbolKind

/-- A name stands for a kind if it is one of the spellings of that kind, in any case and
with white space around it. -/
theorem ofName_eq_ok_iff {name : Text} {kind : SymbolKind} :
    ofName name = .ok kind ↔ Text.lower (Text.trim name) ∈ kind.spellings := by
  have hdistinct : ∀ first ∈ all, ∀ second ∈ all, ∀ spelling ∈ first.spellings,
      spelling ∈ second.spellings → first = second := by decide
  have hall (other : SymbolKind) : other ∈ all := by cases other <;> decide
  unfold ofName
  cases hfind : all.find? fun other => Text.isKeyword other.spellings (Text.trim name) with
  | none =>
      have hnone := List.find?_eq_none.mp hfind kind (hall kind)
      simpa [Text.isKeyword] using hnone
  | some found =>
      have hfound : Text.lower (Text.trim name) ∈ found.spellings := by
        simpa [Text.isKeyword] using List.find?_some hfind
      constructor
      · rintro ⟨⟩
        exact hfound
      · intro hkind
        rw [hdistinct found (hall found) kind (hall kind) _ hfound hkind]

theorem ofName_eq_error_iff {name : Text} :
    (∃ cause, ofName name = .error cause) ↔
      ∀ kind : SymbolKind, Text.lower (Text.trim name) ∉ kind.spellings := by
  simp only [← ofName_eq_ok_iff]
  cases ofName name with
  | error cause => simp
  | ok kind => simp

def known : List Text :=
  ["component".toList, "part".toList, "option".toList, "tweak".toList, "location".toList,
    "root-id".toList, "root_id".toList, "root".toList]

theorem mem_known_iff {spelling : Text} :
    spelling ∈ known ↔ ∃ kind : SymbolKind, spelling ∈ kind.spellings := by
  have hknown : known = all.flatMap spellings := by decide
  have hall (kind : SymbolKind) : kind ∈ all := by cases kind <;> decide
  rw [hknown, List.mem_flatMap]
  exact ⟨fun ⟨kind, _, h⟩ => ⟨kind, h⟩, fun ⟨kind, h⟩ => ⟨kind, hall kind, h⟩⟩

end SymbolKind

namespace SymbolTable

/-! ## Changes -/

inductive Change where
  | set (kind : SymbolKind) (symbol : Text)
  | setByName (name symbol : Text)
  | reset (kind : SymbolKind)
  | resetAll
  | save
  | restore
  deriving DecidableEq

/-- A table after a change.  One that fails leaves the table as it is. -/
def change (table : SymbolTable) : Change → SymbolTable
  | .set kind symbol => table.set kind symbol
  | .setByName name symbol =>
      match table.setByName name symbol with
      | .ok next => next
      | .error _ => table
  | .reset kind => table.reset kind
  | .resetAll => table.resetAll
  | .save => table.save
  | .restore => table.restore

def after (history : List Change) : SymbolTable :=
  history.foldl change initial

namespace Change

/-- Whether a change decides about the symbol of a kind. -/
def Concerns (kind : SymbolKind) : Change → Prop
  | .set other _ | .reset other => other = kind
  | .setByName name _ => Text.lower (Text.trim name) ∈ kind.spellings
  | .resetAll | .restore => True
  | .save => False

instance (kind : SymbolKind) : (step : Change) → Decidable (step.Concerns kind)
  | .set other _ | .reset other => inferInstanceAs (Decidable (other = kind))
  | .setByName name _ =>
      inferInstanceAs (Decidable (Text.lower (Text.trim name) ∈ kind.spellings))
  | .resetAll | .restore => .isTrue trivial
  | .save => .isFalse id

def MovesBaseline (step : Change) : Prop :=
  step = .save ∨ step = .resetAll

end Change

/-- The symbol that a change gives a kind, as far as it concerns the kind and stands
behind an earlier history. -/
inductive Gives (kind : SymbolKind) (before : List Change) : Change → Text → Prop
  | set (symbol : Text) : Gives kind before (.set kind symbol) symbol
  | setByName {name : Text} (symbol : Text) :
      Text.lower (Text.trim name) ∈ kind.spellings →
      Gives kind before (.setByName name symbol) symbol
  | reset : Gives kind before (.reset kind) kind.builtin
  | resetAll : Gives kind before .resetAll kind.builtin
  /-- The symbol at the last save, with no reset of everything behind it. -/
  | restoreSaved {earlier later : List Change} : before = earlier ++ .save :: later →
      (∀ step ∈ later, step ≠ .save ∧ step ≠ .resetAll) →
      Gives kind before .restore ((after earlier).get kind)
  /-- Everything was reset behind every save, if there was one. -/
  | restoreBuiltin :
      (∀ earlier later, before = earlier ++ .save :: later → .resetAll ∈ later) →
      Gives kind before .restore kind.builtin

variable {table : SymbolTable} {kind : SymbolKind} {step : Change}
  {history before behind : List Change} {symbol : Text}

theorem after_append (before behind : List Change) :
    after (before ++ behind) = behind.foldl change (after before) :=
  List.foldl_append

theorem setByName_eq_ok_iff {name : Text} {next : SymbolTable} :
    table.setByName name symbol = .ok next ↔
      ∃ kind : SymbolKind, Text.lower (Text.trim name) ∈ kind.spellings ∧
        next = table.set kind symbol := by
  simp only [setByName, ← SymbolKind.ofName_eq_ok_iff]
  cases SymbolKind.ofName name <;> simp [Except.map, eq_comm]

theorem setByName_eq_error_iff {name : Text} :
    (∃ cause, table.setByName name symbol = .error cause) ↔
      Text.lower (Text.trim name) ∉ SymbolKind.known := by
  rw [SymbolKind.mem_known_iff, not_exists, ← SymbolKind.ofName_eq_error_iff]
  simp only [setByName, map_eq_error_iff]

theorem change_setByName_of_mem {name : Text}
    (h : Text.lower (Text.trim name) ∈ kind.spellings) :
    table.change (.setByName name symbol) = table.set kind symbol := by
  simp only [change, setByName_eq_ok_iff.mpr ⟨kind, h, rfl⟩]

theorem change_setByName_of_not_mem {name : Text}
    (h : Text.lower (Text.trim name) ∉ SymbolKind.known) :
    table.change (.setByName name symbol) = table := by
  have hfails : ∃ cause, table.setByName name symbol = .error cause :=
    setByName_eq_error_iff.mpr h
  obtain ⟨cause, hcause⟩ := hfails
  simp only [change, hcause]

/-- A name that can be set is that of some kind. -/
theorem change_setByName (table : SymbolTable) (name symbol : Text) :
    table.change (.setByName name symbol) = table ∨
      ∃ kind : SymbolKind, Text.lower (Text.trim name) ∈ kind.spellings ∧
        table.change (.setByName name symbol) = table.set kind symbol := by
  by_cases h : Text.lower (Text.trim name) ∈ SymbolKind.known
  · obtain ⟨kind, hkind⟩ := SymbolKind.mem_known_iff.mp h
    exact .inr ⟨kind, hkind, change_setByName_of_mem hkind⟩
  · exact .inl (change_setByName_of_not_mem h)

/-! ## One change -/

theorem get_set_of_ne {other : SymbolKind} (h : other ≠ kind) :
    (table.set other symbol).get kind = table.get kind :=
  Symbols.get_set_of_ne _ _ h.symm

/-- A change that does not concern a kind leaves its symbol alone. -/
theorem get_change_of_not_concerns (h : ¬ step.Concerns kind) :
    (table.change step).get kind = table.get kind := by
  cases step with
  | set other symbol => exact get_set_of_ne h
  | setByName name symbol =>
      rcases change_setByName table name symbol with hsame | ⟨other, hother, hset⟩
      · rw [hsame]
      · rw [hset]
        refine get_set_of_ne ?_
        rintro rfl
        exact h hother
  | reset other => exact get_set_of_ne h
  | resetAll => exact absurd trivial h
  | save => rfl
  | restore => exact absurd trivial h

/-- Only a save and a reset of everything move the baseline. -/
theorem baseline_change_of_not_moves (h : ¬ step.MovesBaseline) :
    (table.change step).baseline = table.baseline := by
  cases step with
  | set other symbol => rfl
  | setByName name symbol =>
      rcases change_setByName table name symbol with hsame | ⟨other, _, hset⟩
      · rw [hsame]
      · rw [hset]
        rfl
  | reset other => rfl
  | resetAll => exact absurd (.inr rfl) h
  | save => exact absurd (.inl rfl) h
  | restore => rfl

/-! ## Whole histories -/

theorem get_foldl_of_not_concerns (h : ∀ step ∈ history, ¬ step.Concerns kind) :
    (history.foldl change table).get kind = table.get kind := by
  induction history generalizing table with
  | nil => rfl
  | cons step history ih =>
      rw [List.forall_mem_cons] at h
      rw [List.foldl_cons, ih h.2, get_change_of_not_concerns h.1]

theorem baseline_foldl_of_not_moves (h : ∀ step ∈ history, ¬ step.MovesBaseline) :
    (history.foldl change table).baseline = table.baseline := by
  induction history generalizing table with
  | nil => rfl
  | cons step history ih =>
      rw [List.forall_mem_cons] at h
      rw [List.foldl_cons, ih h.2, baseline_change_of_not_moves h.1]

section Baseline

variable {earlier later : List Change} (h : ∀ step ∈ later, ¬ step.MovesBaseline)
include h

theorem baseline_after_save (earlier : List Change) :
    (after (earlier ++ .save :: later)).baseline = (after earlier).current := by
  rw [after_append, List.foldl_cons, baseline_foldl_of_not_moves h]
  rfl

theorem baseline_after_resetAll (earlier : List Change) :
    (after (earlier ++ .resetAll :: later)).baseline = .builtin := by
  rw [after_append, List.foldl_cons, baseline_foldl_of_not_moves h]
  rfl

/-- No save stands behind the last reset of everything if nothing moves the baseline
there. -/
theorem resetAll_mem_of_append_eq {front back : List Change}
    (hsplit : earlier ++ .resetAll :: later = front ++ .save :: back) :
    .resetAll ∈ back := by
  rcases List.append_eq_append_iff.mp hsplit with ⟨middle, _, hreset⟩ | ⟨middle, _, hsave⟩
  · cases middle with
    | nil => cases hreset
    | cons step middle =>
        have hlater := (List.cons.inj hreset).2
        exact absurd (.inl rfl) (h .save (by simp [hlater]))
  · cases middle with
    | nil => cases hsave
    | cons step middle =>
        rw [(List.cons.inj hsave).2]
        simp

end Baseline

/-- Without a save that still counts the baseline is what it was at first. -/
theorem baseline_eq_builtin
    (h : ∀ earlier later, before = earlier ++ .save :: later → .resetAll ∈ later) :
    (after before).baseline = .builtin := by
  rcases forall_not_or_exists_last Change.MovesBaseline before with
    hnone | ⟨earlier, _, later, rfl, rfl | rfl, hlater⟩
  · exact baseline_foldl_of_not_moves hnone
  · exact absurd (.inr rfl) (hlater _ (h earlier later rfl))
  · exact baseline_after_resetAll hlater earlier

theorem gives_restore (kind : SymbolKind) (before : List Change) :
    Gives kind before .restore ((after before).baseline.get kind) := by
  rcases forall_not_or_exists_last Change.MovesBaseline before with
    hnone | ⟨earlier, _, later, rfl, rfl | rfl, hlater⟩
  · have hsave : ∀ earlier later, before = earlier ++ .save :: later → .resetAll ∈ later := by
      rintro earlier later rfl
      exact absurd (.inl rfl) (hnone .save (by simp))
    rw [baseline_eq_builtin hsave, Symbols.get_builtin]
    exact .restoreBuiltin hsave
  · rw [baseline_after_save hlater]
    exact .restoreSaved rfl fun step hstep => not_or.mp (hlater step hstep)
  · rw [baseline_after_resetAll hlater, Symbols.get_builtin]
    exact .restoreBuiltin fun _ _ => resetAll_mem_of_append_eq hlater

/-- What a change gives is the symbol of the kind afterwards, and nothing else. -/
theorem gives_iff (h : step.Concerns kind) :
    Gives kind before step symbol ↔ symbol = ((after before).change step).get kind := by
  constructor
  · rintro (_ | ⟨_, hname⟩ | _ | _ | @⟨earlier, later, rfl, hlater⟩ | hsave)
    · exact (Symbols.get_set_self ..).symm
    · rw [change_setByName_of_mem hname]
      exact (Symbols.get_set_self ..).symm
    · exact (Symbols.get_set_self ..).symm
    · exact (Symbols.get_builtin kind).symm
    · have hbaseline := baseline_after_save (fun step hstep =>
        not_or.mpr (hlater step hstep)) earlier
      exact congrArg (Symbols.get · kind) hbaseline.symm
    · rw [← Symbols.get_builtin, ← baseline_eq_builtin hsave]
      rfl
  · rintro rfl
    cases step with
    | set other symbol =>
        obtain rfl : other = kind := h
        rw [change, get, set, Symbols.get_set_self]
        exact .set symbol
    | setByName name symbol =>
        rw [change_setByName_of_mem h, get, set, Symbols.get_set_self]
        exact .setByName symbol h
    | reset other =>
        obtain rfl : other = kind := h
        rw [change, reset, get, set, Symbols.get_set_self]
        exact .reset
    | resetAll =>
        rw [change, resetAll, get, initial, Symbols.get_builtin]
        exact .resetAll
    | save => exact h.elim
    | restore => exact gives_restore kind before

/-- The symbol of a kind is what the last change that concerns the kind gives it, and the
built-in one if there is none.  A change that does not concern the kind leaves its symbol
alone, and a save leaves all of them.  Names that stand for no kind, and no others, cannot
be set, and then nothing is changed at all. -/
theorem gives_after_iff (history : List Change) (kind : SymbolKind) :
    ((∀ step ∈ history, ¬ step.Concerns kind) → (after history).get kind = kind.builtin) ∧
    (∀ before step behind, history = before ++ step :: behind → step.Concerns kind →
      (∀ other ∈ behind, ¬ other.Concerns kind) →
        ∀ symbol, Gives kind before step symbol ↔ symbol = (after history).get kind) ∧
    (∀ step, ¬ step.Concerns kind →
      (after (history ++ [step])).get kind = (after history).get kind) ∧
    (after (history ++ [.save])).current = (after history).current ∧
    ∀ name symbol,
      ((∃ cause, (after history).setByName name symbol = .error cause) ↔
        Text.lower (Text.trim name) ∉ SymbolKind.known) ∧
      (Text.lower (Text.trim name) ∉ SymbolKind.known →
        after (history ++ [.setByName name symbol]) = after history) := by
  refine ⟨?untouched, ?concerned, ?others, ?saved,
    fun name symbol => ⟨setByName_eq_error_iff, ?unknown⟩⟩
  case untouched =>
    intro h
    exact (get_foldl_of_not_concerns h).trans (Symbols.get_builtin kind)
  case concerned =>
    rintro before step behind rfl hstep hbehind symbol
    rw [gives_iff hstep, after_append, List.foldl_cons, get_foldl_of_not_concerns hbehind]
  case others =>
    intro step hstep
    rw [after_append]
    exact get_change_of_not_concerns hstep
  case saved =>
    rw [after_append]
    rfl
  case unknown =>
    intro h
    rw [after_append]
    exact change_setByName_of_not_mem h

/-- The save in front of a reset of everything is forgotten, and the one behind it is
returned to, whatever was set in between. -/
theorem gives_after_iff_restore :
    ∃ history before behind earlier later, history = before ++ .restore :: behind ∧
      before = earlier ++ .save :: later ∧
      earlier = [.set .part ['/'], .save, .resetAll, .setByName " PART ".toList ['_']] ∧
      later = [.set .part ['|'], .setByName "modifier".toList ['x'], .restore, .reset .part] ∧
      behind = [.setByName "Root".toList ['r'], .save, .reset .tweak] ∧
      (∀ other ∈ behind, ¬ other.Concerns .part) ∧
      (∀ step ∈ later, step ≠ .save ∧ step ≠ .resetAll) ∧
      (after earlier).get .part = ['_'] ∧ (after history).get .part = ['_'] ∧
      Text.lower (Text.trim "modifier".toList) ∉ SymbolKind.known := by
  refine ⟨_, _, _, _, _, rfl, rfl, rfl, rfl, rfl, ?behind, ?later, ?earlier, ?restored,
    by decide⟩
  case behind => decide
  case later => decide
  case earlier => decide
  case restored =>
    have hgives := (gives_after_iff
      ([.set .part ['/'], .save, .resetAll, .setByName " PART ".toList ['_']] ++
        .save :: [.set .part ['|'], .setByName "modifier".toList ['x'], .restore,
          .reset .part] ++
        .restore :: [.setByName "Root".toList ['r'], .save, .reset .tweak]) .part).2.1
    have hrestored := (hgives _ .restore _ rfl trivial (by decide) _).mp
      (.restoreSaved rfl (by decide))
    rw [← hrestored]
    decide

end SymbolTable

/-! ## The table of a workspace -/

def Command.changes : Command → List SymbolTable.Change
  | .setSymbol name value => [.setByName name value]
  | .resetSymbol name =>
      match SymbolKind.ofName name with
      | .ok kind => [.reset kind]
      | .error _ => []
  | .resetAll => [.resetAll]
  | .save => [.save]
  | .restore => [.restore]
  | .symbol _ | .tryOut _ | .add _ => []
  | .isInitial | .takeSnapshot | .snapshotSymbols | .clear | .compile => []

namespace Workspace

/-- The workspace after some commands, those that fail included. -/
def after (workspace : Workspace) (commands : List Command) : Workspace :=
  commands.foldl (fun workspace command => (workspace.answer command).2) workspace

/-- A command changes the table as it says. -/
theorem table_answer (workspace : Workspace) (command : Command) :
    (workspace.answer command).2.table =
      command.changes.foldl SymbolTable.change workspace.table := by
  unfold answer
  cases command with
  | setSymbol name value =>
      simp only [step, Command.changes, List.foldl_cons, List.foldl_nil, SymbolTable.change]
      cases workspace.table.setByName name value <;> rfl
  | resetSymbol name =>
      simp only [step, Command.changes]
      cases SymbolKind.ofName name <;> rfl
  | symbol name =>
      simp only [step]
      cases SymbolKind.ofName name <;> rfl
  | tryOut declaration =>
      simp only [step]
      cases declaration.rules workspace.snapshot <;> rfl
  | compile =>
      simp only [step]
      cases workspace.sheet.compile workspace.table <;> rfl
  | _ => rfl

/-- The table of a workspace has the history that the commands make. -/
theorem table_after (workspace : Workspace) (commands : List Command) :
    (workspace.after commands).table =
      (commands.flatMap Command.changes).foldl SymbolTable.change workspace.table := by
  induction commands generalizing workspace with
  | nil => rfl
  | cons command commands ih =>
      have hrest := ih (workspace.answer command).2
      rw [table_answer] at hrest
      rw [List.flatMap_cons, List.foldl_append, ← hrest]
      rfl

end Workspace

end Cascade
