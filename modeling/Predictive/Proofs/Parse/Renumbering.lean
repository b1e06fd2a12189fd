-- SUMMARY: Parsers whose grammars number the same rules differently take the same steps under these other numbers.
import Predictive.Proofs.Parse.Run

/-!
# Renumbered rules

A parser never looks at the number of a rule, but to find the rule. If two grammars have the same
rules under different numbers, and two tables the same cells under these numbers, then the parsers
go through the same configurations, and their traces differ in the numbers of the expanded rules
only.
-/

namespace Predictive

variable {σ : RuleId → RuleId}

def Cell.renumber (σ : RuleId → RuleId) : Cell → Cell
  | .rule r => .rule (σ r)
  | .extract => .extract
  | .explore => .explore

def Action.renumber (σ : RuleId → RuleId) : Action → Action
  | .expand r => .expand (σ r)
  | action => action

def Step.renumber (σ : RuleId → RuleId) (s : Step) : Step :=
  { s with action := s.action.renumber σ }

/-- The trace with other numbers on the expanded rules. -/
def Trace.renumber (σ : RuleId → RuleId) (t : Trace) : Trace :=
  { t with steps := t.steps.map (Step.renumber σ) }

@[simp] theorem Action.outcome?_renumber (action : Action) :
    (action.renumber σ).outcome? = action.outcome? := by
  cases action <;> rfl

theorem Trace.renumber_prepend (s : Step) (t : Trace) :
    (t.prepend s).renumber σ = (t.renumber σ).prepend (s.renumber σ) := by
  simp [prepend, renumber]

namespace Parser

/-- The second parser is the first one with other numbers on its rules. -/
structure Renumbers (σ : RuleId → RuleId) (p p' : Parser) : Prop where
  options : p'.options = p.options
  start : p'.grammar.start = p.grammar.start
  terminal : ∀ x, p'.grammar.isTerminal x = p.grammar.isTerminal x
  nonterminal : ∀ x, p'.grammar.isNonterminal x = p.grammar.isNonterminal x
  rule? : ∀ r, p'.grammar.rule? (σ r) = p.grammar.rule? r
  cell : ∀ a x, p'.table.get? a x = (p.table.get? a x).map (Cell.renumber σ)

namespace Renumbers

variable {p p' : Parser} (h : p.Renumbers σ p')
include h

theorem consult (a x : Symbol) : p'.consult a x = (p.consult a x).renumber σ := by
  unfold Parser.consult
  rw [h.cell]
  cases p.table.get? a x with
  | none => rfl
  | some cell =>
    cases cell with
    | rule r =>
      simp only [Option.map_some, Cell.renumber, h.rule?]
      split <;> rfl
    | extract => rfl
    | explore => rfl

theorem decide (x y : Symbol) : p'.decide x y = (p.decide x y).renumber σ := by
  unfold Parser.decide
  rw [h.terminal, h.nonterminal, h.consult]
  repeat' split
  all_goals rfl

theorem next (n : Nat) (m : Machine) : p'.next n m = (p.next n m).renumber σ := by
  unfold Parser.next
  rw [h.options, h.decide]
  repeat' split
  all_goals rfl

theorem apply (m : Machine) (action : Action) :
    p'.apply m (action.renumber σ) = p.apply m action := by
  cases action with
  | expand r => simp only [Action.renumber, Parser.apply, h.rule?]
  | _ => rfl

theorem run (fuel n : Nat) (m : Machine) : p'.run fuel n m = (p.run fuel n m).renumber σ := by
  induction fuel generalizing n m with
  | zero => rfl
  | succ fuel ih =>
    unfold Parser.run
    simp only [h.next, Action.outcome?_renumber, h.apply, ih]
    split
    · rfl
    · rw [Trace.renumber_prepend]
      rfl

theorem parseWithin (fuel : Nat) (tokens : List Symbol) :
    p'.parseWithin fuel tokens = (p.parseWithin fuel tokens).renumber σ := by
  simp only [Parser.parseWithin, h.run, h.start, Trace.renumber_prepend]
  rfl

/-- The runs on the same tokens end together, with the same trace under the other numbers. -/
theorem endsWith_iff {tokens : List Symbol} {t' : Trace} :
    p'.EndsWith tokens t' ↔ ∃ t, p.EndsWith tokens t ∧ t' = t.renumber σ := by
  refine ⟨?_, ?_⟩
  · rintro ⟨hstatus, fuel, rfl⟩
    rw [h.parseWithin] at hstatus
    exact ⟨p.parseWithin fuel tokens, ⟨hstatus, fuel, rfl⟩, h.parseWithin fuel tokens⟩
  · rintro ⟨t, ⟨hstatus, fuel, rfl⟩, rfl⟩
    exact ⟨hstatus, fuel, h.parseWithin fuel tokens⟩

end Renumbers

end Parser

end Predictive
