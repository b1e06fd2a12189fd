-- SUMMARY: What a builder has collected after any history of steps.
import Predictive.Proofs.Grammar.Built

/-!
# Histories

Each part of a builder depends on some of the steps in its history only, and on their order: the
names on the creations, the declared nonterminals and the rules on the additions. The start symbol
is the one that was set last, or else the one that was declared first.
-/

namespace Predictive

namespace BuilderStep

/-- The name of the symbol that the step creates. -/
def created? : BuilderStep → Option (Option String)
  | .createSymbol name? => some name?
  | _ => none

/-- The symbol that the step sets as start. -/
def chosen? : BuilderStep → Option Symbol
  | .setStart x => some x
  | _ => none

/-- The nonterminal that the step declares. -/
def declared? : BuilderStep → Option Symbol
  | .addRules lhs _ => some lhs
  | _ => none

/-- The rules that the step adds. -/
def added : BuilderStep → List Rule
  | .addRules lhs alternatives => alternatives.map (Rule.mk lhs)
  | _ => []

end BuilderStep

namespace Builder

variable {steps : List BuilderStep} {g : Grammar}

theorem addRules_eq (b : Builder) (lhs : Symbol) (alternatives : List (List Symbol)) :
    b.addRules lhs alternatives =
      { b.declare lhs with rules := b.rules ++ (alternatives.map (Rule.mk lhs)).toArray } := by
  have hfold : ∀ b : Builder, alternatives.foldl (fun b rhs => b.addRule ⟨lhs, rhs⟩) b =
      { b with rules := b.rules ++ (alternatives.map (Rule.mk lhs)).toArray } := by
    induction alternatives with
    | nil => simp
    | cons rhs alternatives ih =>
      intro b
      rw [List.foldl_cons, ih]
      simp [addRule]
  exact hfold (b.declare lhs)

theorem ofSteps_concat (steps : List BuilderStep) (step : BuilderStep) :
    ofSteps (steps ++ [step]) = (ofSteps steps).perform step := by
  simp [ofSteps]

theorem names_ofSteps (steps : List BuilderStep) :
    (ofSteps steps).table.names.toList =
      some endOfInputName :: steps.filterMap BuilderStep.created? := by
  induction steps using List.reverseRecOn with
  | nil => rfl
  | append_singleton steps step ih =>
    rw [ofSteps_concat, List.filterMap_append, ← List.cons_append, ← ih]
    cases step with
    | createSymbol name? => simp [perform, createSymbol, SymbolTable.create, BuilderStep.created?]
    | setStart x => simp [perform, setStart, BuilderStep.created?]
    | addRules lhs alternatives => simp [perform, addRules_eq, declare, BuilderStep.created?]

theorem start?_ofSteps (steps : List BuilderStep) :
    (ofSteps steps).start? =
      ((steps.filterMap BuilderStep.chosen?).getLast? <|>
        (steps.filterMap BuilderStep.declared?).head?) := by
  induction steps using List.reverseRecOn with
  | nil => rfl
  | append_singleton steps step ih =>
    rw [ofSteps_concat, List.filterMap_append, List.filterMap_append]
    cases step with
    | createSymbol name? =>
      simpa [perform, createSymbol, BuilderStep.chosen?, BuilderStep.declared?] using ih
    | setStart x => simp [perform, setStart, BuilderStep.chosen?]
    | addRules lhs alternatives =>
      simp [perform, addRules_eq, declare, ih, BuilderStep.chosen?, BuilderStep.declared?]

theorem declared_ofSteps (steps : List BuilderStep) :
    (ofSteps steps).declared.toList = (steps.filterMap BuilderStep.declared?).eraseDups := by
  induction steps using List.reverseRecOn with
  | nil => rfl
  | append_singleton steps step ih =>
    rw [ofSteps_concat, List.filterMap_append]
    cases step with
    | createSymbol name? =>
      rw [List.filterMap_cons_none rfl, List.filterMap_nil, List.append_nil, ← ih]
      rfl
    | setStart x =>
      rw [List.filterMap_cons_none rfl, List.filterMap_nil, List.append_nil, ← ih]
      rfl
    | addRules lhs alternatives =>
      have hmem : lhs ∈ (ofSteps steps).declared ↔ lhs ∈ steps.filterMap BuilderStep.declared? := by
        rw [← Array.mem_toList_iff, ih, List.mem_eraseDups]
      simp only [perform, addRules_eq, declare, BuilderStep.declared?, List.filterMap_cons,
        List.filterMap_nil, eraseDups_concat, ← ih, hmem]
      split <;> simp

theorem rules_ofSteps (steps : List BuilderStep) :
    (ofSteps steps).rules.toList = steps.flatMap BuilderStep.added := by
  induction steps using List.reverseRecOn with
  | nil => rfl
  | append_singleton steps step ih =>
    rw [ofSteps_concat, List.flatMap_append, ← ih]
    cases step with
    | createSymbol name? => simp [perform, createSymbol, BuilderStep.added]
    | setStart x => simp [perform, setStart, BuilderStep.added]
    | addRules lhs alternatives => simp [perform, addRules_eq, BuilderStep.added]

/-- The left-hand side of every rule is declared. -/
theorem lhs_mem_declared {rule : Rule} (h : rule ∈ (ofSteps steps).rules) :
    rule.lhs ∈ (ofSteps steps).declared := by
  rw [← Array.mem_toList_iff, rules_ofSteps, List.mem_flatMap] at h
  obtain ⟨step, hstep, hadded⟩ := h
  rw [← Array.mem_toList_iff, declared_ofSteps, List.mem_eraseDups, List.mem_filterMap]
  cases step with
  | addRules lhs alternatives =>
    obtain ⟨rhs, -, rfl⟩ := List.mem_map.1 hadded
    exact ⟨_, hstep, rfl⟩
  | createSymbol name? => cases hadded
  | setStart x => cases hadded

theorem nodup_declared (steps : List BuilderStep) : (ofSteps steps).declared.toList.Nodup :=
  declared_ofSteps steps ▸ nodup_eraseDups _

theorem nodup_nonterminals_layout (steps : List BuilderStep) (start : Symbol) :
    ((ofSteps steps).layout start).nonterminals.Nodup := by
  rw [nonterminals_layout]
  exact RuleGraph.nodup_order (nodup_declared steps) start

end Builder

/-- A built grammar has a single block for each nonterminal. -/
theorem Grammar.Built.nodup_nonterminals {g : Grammar} (h : g.Built) : g.nonterminals.Nodup := by
  obtain ⟨steps, hbuild⟩ := h
  obtain ⟨-, start, -, rfl⟩ := Builder.build_eq_ok hbuild
  exact Builder.nodup_nonterminals_layout steps start

end Predictive
