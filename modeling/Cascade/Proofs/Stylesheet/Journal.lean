import Cascade.Proofs.Stylesheet.Policy
import Cascade.Stylesheet.Journal

/-!
# What a journal names

A rule is noted where the walk finishes the selectors of a node with a body, also if the
node belongs to the target of a policy, and nowhere else.  So the journal names the rules
that there would be if the targets were declared as they are, and not the rule that the
policy has instead.  The two are the same for policies whose targets have just the rule
that the policy has.
-/

namespace Cascade

namespace Record

def selectors? : Record → Option Text
  | .rule selectors _ => some selectors
  | .emptyPolicy _ | .compiled _ _ => none

end Record

namespace Item

def declarations : Item → List Declaration
  | .ofDeclaration declaration => [declaration]
  | .ofPolicy policy => policy.targets

end Item

namespace Stylesheet

/-- A stylesheet that declares what the policies of another one have as targets. -/
def declared (sheet : Stylesheet) : Stylesheet :=
  (sheet.flatMap Item.declarations).map .ofDeclaration

end Stylesheet

/-- A policy whose rule is named by the rules of its targets. -/
def Policy.IsNoted (table : SymbolTable) (policy : Policy) : Prop :=
  ∀ rule noted, policy.rule table = .ok rule →
    Stylesheet.compile table (policy.targets.map .ofDeclaration) = .ok noted →
    noted.map Rule.selectorText = rule.toList.map Rule.selectorText

/-- A policy without targets has no rule that could be missing. -/
theorem Policy.isNoted_of_targets_eq_nil {table : SymbolTable} {policy : Policy}
    (h : policy.targets = []) : policy.IsNoted table := by
  intro rule noted hrule hnoted
  rw [Policy.rule_eq, h] at hrule
  rw [h] at hnoted
  cases hrule
  cases hnoted
  rfl

/-! ## Records of a walk -/

/-- The visits of a walk note the rules among them. -/
theorem Visit.filterMap_selectors? (visits : List Visit) :
    (visits.filterMap Visit.record?).filterMap Record.selectors? =
      (Visit.rules visits).map Rule.selectorText := by
  rw [List.filterMap_filterMap, Visit.rules, List.map_filterMap]
  refine List.filterMap_congr fun visit _ => ?_
  rw [Visit.record?]
  cases visit.rule? <;> rfl

namespace Item

variable {symbols : Symbols} {item : Item}

theorem filterMap_records (symbols : Symbols) (item : Item) :
    (item.records symbols).filterMap Record.selectors? =
      (Visit.rules (item.trace symbols).visits).map Rule.selectorText := by
  have hclosing : (item.closing (item.trace symbols)).filterMap Record.selectors? = [] := by
    unfold closing
    split
    · split <;> rfl
    · rfl
  rw [records, List.filterMap_append, Visit.filterMap_selectors?, hclosing, List.append_nil]

/-- No item notes the end of a compilation. -/
theorem compiled_not_mem_records (rules items : Nat) :
    .compiled rules items ∉ item.records symbols := by
  rw [records, List.mem_append, not_or, List.mem_filterMap]
  constructor
  · rintro ⟨visit, _, hrecord⟩
    obtain ⟨rule, _, hrule⟩ := Option.map_eq_some_iff.mp hrecord
    cases hrule
  · unfold closing
    split
    · split <;> simp
    · simp

end Item

/-! ## Records of a stylesheet -/

namespace Stylesheet

variable {table : SymbolTable} {sheet first second : Stylesheet} {item : Item}
  {rules : List Rule} {visits : List Visit}

theorem compile_append_eq_ok_iff :
    compile table (first ++ second) = .ok rules ↔
      ∃ here after, first.compile table = .ok here ∧ second.compile table = .ok after ∧
        rules = here ++ after := by
  unfold compile
  rw [List.mapM_append]
  cases first.mapM (Item.rules table.current) with
  | error cause => simp [bind, Except.bind, Except.map]
  | ok here =>
      cases second.mapM (Item.rules table.current) <;>
        simp [bind, Except.bind, pure, Except.pure, Except.map, eq_comm]

theorem compile_singleton : compile table [item] = item.rules table.current := by
  rw [compile, List.mapM_cons, List.mapM_nil]
  cases item.rules table.current with
  | error cause => rfl
  | ok own => exact congrArg Except.ok (List.append_nil own)

/-- Declared by itself, what an item walks over has the rules that the walk visits. -/
theorem compile_map_ofDeclaration (table : SymbolTable) (item : Item) :
    compile table (item.declarations.map .ofDeclaration) =
      (item.trace table.current).result.map Visit.rules := by
  cases item with
  | ofDeclaration declaration => exact compile_singleton
  | ofPolicy policy =>
      rw [compile, List.mapM_map]
      exact (Declaration.result_walkAll_map rfl (fun _ _ => List.filterMap_append)
        policy.targets).symm

theorem declared_cons (item : Item) (sheet : Stylesheet) :
    declared (item :: sheet) = item.declarations.map .ofDeclaration ++ sheet.declared := by
  rw [declared, List.flatMap_cons, List.map_append, declared]

/-- What is noted for an item names its own rules, or those of its targets. -/
theorem map_selectorText_of_item (hvisits : (item.trace table.current).result = .ok visits)
    (hnoted : ∀ policy, item = .ofPolicy policy → policy.IsNoted table) :
    (Visit.rules visits).map Rule.selectorText =
      (item.rulesOf visits).map Rule.selectorText := by
  cases item with
  | ofDeclaration declaration => rfl
  | ofPolicy policy =>
      refine hnoted policy rfl (policy.ruleOf visits) (Visit.rules visits) ?_ ?_
      · exact congrArg (Except.map policy.ruleOf) hvisits
      · have hcompile := compile_map_ofDeclaration table (.ofPolicy policy)
        rw [hvisits] at hcompile
        exact hcompile

/-- Item by item the rules are noted that there are if all targets are declared. -/
theorem filterMap_itemRecords (h : sheet.compile table = .ok rules) :
    ∃ noted, sheet.declared.compile table = .ok noted ∧
      (itemRecords table.current sheet).filterMap Record.selectors? =
        noted.map Rule.selectorText ∧
      ((∀ policy, .ofPolicy policy ∈ sheet → policy.IsNoted table) →
        noted.map Rule.selectorText = rules.map Rule.selectorText) := by
  induction sheet generalizing rules with
  | nil =>
      cases h
      exact ⟨[], rfl, rfl, fun _ => rfl⟩
  | cons item sheet ih =>
      rw [← List.singleton_append, compile_append_eq_ok_iff, compile_singleton] at h
      obtain ⟨own, others, hown, hothers, rfl⟩ := h
      obtain ⟨visits, hvisits, rfl⟩ := exists_of_map_eq_ok hown
      obtain ⟨noted, hnoted, hrecords, hsame⟩ := ih hothers
      have hdeclared : compile table (item.declarations.map .ofDeclaration) =
          .ok (Visit.rules visits) := by
        rw [compile_map_ofDeclaration, hvisits]
        rfl
      have hfailure : (item.trace table.current).failure.isSome = false := by
        revert hvisits
        unfold Trace.result
        cases (item.trace table.current).failure <;> simp
      refine ⟨Visit.rules visits ++ noted, ?_, ?_, fun hpolicies => ?_⟩
      · rw [declared_cons]
        exact compile_append_eq_ok_iff.mpr ⟨_, _, hdeclared, hnoted, rfl⟩
      · rw [itemRecords, hfailure, List.filterMap_append, item.filterMap_records,
          Declaration.visits_of_result hvisits, List.map_append, ← hrecords]
        rfl
      · rw [List.map_append, List.map_append,
          hsame fun policy hpolicy => hpolicies policy (List.mem_cons_of_mem _ hpolicy),
          map_selectorText_of_item hvisits]
        rintro policy rfl
        exact hpolicies policy List.mem_cons_self

theorem compiled_not_mem_itemRecords (symbols : Symbols) (sheet : Stylesheet)
    (rules items : Nat) : .compiled rules items ∉ itemRecords symbols sheet := by
  induction sheet with
  | nil => simp [itemRecords]
  | cons item sheet ih =>
      rw [itemRecords, List.mem_append, not_or]
      refine ⟨item.compiled_not_mem_records rules items, ?_⟩
      split
      · simp
      · exact ih

/-- A compilation that succeeds notes, at the very end and only there, how many rules and
items there are.  In front of that it names the rules, one record for each and in their
order, that the stylesheet has once the targets of its policies are declared; these are
its own if every policy is noted.  A compilation that fails does not note its end. -/
theorem journal_names_declared (table : SymbolTable) (sheet : Stylesheet) :
    (∀ rules, sheet.compile table = .ok rules → ∃ records noted,
      sheet.journal table = records ++ [.compiled rules.length sheet.length] ∧
      (∀ rules items, .compiled rules items ∉ records) ∧
      sheet.declared.compile table = .ok noted ∧
      records.filterMap Record.selectors? = noted.map Rule.selectorText ∧
      ((∀ policy, .ofPolicy policy ∈ sheet → policy.IsNoted table) →
        records.filterMap Record.selectors? = rules.map Rule.selectorText)) ∧
    ∀ cause, sheet.compile table = .error cause →
      ∀ rules items, .compiled rules items ∉ sheet.journal table := by
  constructor
  · intro rules hrules
    obtain ⟨noted, hnoted, hrecords, hsame⟩ := filterMap_itemRecords hrules
    refine ⟨itemRecords table.current sheet, noted, ?_,
      compiled_not_mem_itemRecords table.current sheet, hnoted, hrecords,
      fun hpolicies => hrecords.trans (hsame hpolicies)⟩
    rw [journal, hrules]
  · intro cause hcause rules items
    rw [journal, hcause, List.append_nil]
    exact compiled_not_mem_itemRecords table.current sheet rules items

/-- Two bodies in one tree, and a policy that is noted by its name only. -/
theorem journal_names_declared_nested :
    ∃ (sheet : Stylesheet) (rules : List Rule) (records : List Record),
      sheet = [.ofDeclaration ⟨.component, [['c'], ['d']], some ['x'],
          [⟨.part, [['p']], some ['y'], []⟩]⟩, .ofPolicy ⟨['n'], ['z'], []⟩] ∧
      sheet.compile .initial = .ok rules ∧
      (∀ policy, .ofPolicy policy ∈ sheet → policy.IsNoted .initial) ∧
      rules.map Rule.selectorText = [".c, .d".toList, ".c\\.p, .d\\.p".toList] ∧
      sheet.journal .initial = records ++ [.compiled 2 2] ∧
      records.filterMap Record.selectors? = rules.map Rule.selectorText := by
  obtain ⟨rules, hrules, htexts⟩ : ∃ rules, compile .initial
      [.ofDeclaration ⟨.component, [['c'], ['d']], some ['x'],
        [⟨.part, [['p']], some ['y'], []⟩]⟩, .ofPolicy ⟨['n'], ['z'], []⟩] = .ok rules ∧
      rules.map Rule.selectorText = [".c, .d".toList, ".c\\.p, .d\\.p".toList] := by
    refine ⟨[⟨[⟨[⟨[.className ['c']], .none⟩], ⟨0, 1, 0⟩, ['x']⟩,
        ⟨[⟨[.className ['d']], .none⟩], ⟨0, 1, 0⟩, ['x']⟩], ['x']⟩,
      ⟨[⟨[⟨[.className "c\\.p".toList], .none⟩], ⟨0, 1, 0⟩, ['y']⟩,
        ⟨[⟨[.className "d\\.p".toList], .none⟩], ⟨0, 1, 0⟩, ['y']⟩], ['y']⟩], ?_, ?_⟩
    all_goals decide +kernel
  have hpolicies : ∀ policy, .ofPolicy policy ∈ ([.ofDeclaration ⟨.component, [['c'], ['d']],
      some ['x'], [⟨.part, [['p']], some ['y'], []⟩]⟩, .ofPolicy ⟨['n'], ['z'], []⟩] :
        Stylesheet) → policy.IsNoted .initial := by
    intro policy hpolicy
    simp only [List.mem_cons, reduceCtorEq, false_or, Item.ofPolicy.injEq, List.not_mem_nil,
      or_false] at hpolicy
    exact Policy.isNoted_of_targets_eq_nil (by rw [hpolicy])
  obtain ⟨records, _, hjournal, _, _, _, hnames⟩ :=
    (journal_names_declared .initial _).1 rules hrules
  refine ⟨_, rules, records, rfl, hrules, hpolicies, htexts, ?_, hnames hpolicies⟩
  rw [hjournal, ← List.length_map (f := Rule.selectorText), htexts]
  rfl

/-- The rule of a policy is not noted.  Noted are the bodies in its targets, though these
have no rules. -/
theorem journal_policy_ne :
    (∃ rule, compile .initial
        [.ofPolicy ⟨['n'], "top: 0".toList, [⟨.component, [['c']], none, []⟩]⟩] = .ok [rule] ∧
      rule.selectorText = ".c".toList ∧
      journal .initial
        [.ofPolicy ⟨['n'], "top: 0".toList, [⟨.component, [['c']], none, []⟩]⟩] =
          [.compiled 1 1]) ∧
    ∃ rule, compile .initial
        [.ofPolicy ⟨['n'], "top: 0".toList, [⟨.component, [['c']], some ['x'],
          [⟨.part, [['p']], some ['y'], []⟩]⟩]⟩] = .ok [rule] ∧
      rule.selectorText = ".c\\.p".toList ∧
      journal .initial
        [.ofPolicy ⟨['n'], "top: 0".toList, [⟨.component, [['c']], some ['x'],
          [⟨.part, [['p']], some ['y'], []⟩]⟩]⟩] =
          [.rule ".c".toList "component(c)".toList, .rule ".c\\.p".toList "part(p)".toList,
            .compiled 1 1] := by
  refine ⟨⟨⟨[⟨[⟨[.className ['c']], .none⟩], ⟨0, 1, 0⟩, "top: 0".toList⟩],
      "top: 0".toList⟩, ?_⟩,
    ⟨⟨[⟨[⟨[.className "c\\.p".toList], .none⟩], ⟨0, 1, 0⟩, "top: 0".toList⟩],
      "top: 0".toList⟩, ?_⟩⟩
  all_goals decide +kernel

end Stylesheet

end Cascade
