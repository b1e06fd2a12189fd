-- SUMMARY: Parse tables: which rule to expand for a nonterminal and a lookahead, or how to recover when no rule applies.
import Predictive.Grammar.Display
import Predictive.Lookahead.Follow

/-!
# Parse tables

A table has a cell for each pair of a nonterminal and a terminal. A rule claims the cells of the
terminals that its right-hand side can begin with, and, if that can be empty, of those that may
follow its left-hand side. When several rules claim a cell the last one gets it. Cells that no rule
claims tell how to recover from an error.
-/

namespace Predictive

/-- A nonterminal on the stack and the next input terminal. -/
structure Slot where
  nonterminal : Symbol
  terminal : Symbol
deriving DecidableEq, Repr

namespace Slot

/-- Slots are ordered by nonterminal first. -/
instance : Ord Slot := ⟨compareLex (compareOn Slot.nonterminal) (compareOn Slot.terminal)⟩

theorem compare_eq (a b : Slot) :
    compare a b = (compare a.nonterminal b.nonterminal).then (compare a.terminal b.terminal) := rfl

instance : Std.TransOrd Slot :=
  inferInstanceAs (Std.TransCmp (compareLex (compareOn Slot.nonterminal) (compareOn Slot.terminal)))

instance : Std.LawfulEqOrd Slot where
  eq_of_compare {a b} h := by
    rw [compare_eq, Ordering.then_eq_eq] at h
    cases a; cases b
    simp only [Std.LawfulEqOrd.compare_eq_iff_eq] at h
    simp [h.1, h.2]

end Slot

inductive Cell where
  /-- Expand the nonterminal with this rule. -/
  | rule (r : RuleId)
  /-- Drop the nonterminal, since the terminal may follow it. -/
  | extract
  /-- Discard the input terminal. -/
  | explore
deriving DecidableEq, Repr

structure ParseTable where
  cells : Std.ExtTreeMap Slot Cell
  /-- How often a rule took a cell from a different rule. -/
  overwritten : Nat
deriving DecidableEq

/-- The claim of a rule on a cell. -/
structure Claim where
  slot : Slot
  rule : RuleId
deriving DecidableEq, Repr

namespace ParseTable

def get? (t : ParseTable) (nonterminal terminal : Symbol) : Option Cell :=
  t.cells[(⟨nonterminal, terminal⟩ : Slot)]?

/-! ## Claims -/

/-- The terminals that select a rule. One that is both in FIRST and in FOLLOW occurs twice. -/
def selectors (first : FirstSets) (follow : FollowSets) (rule : Rule) : List Symbol :=
  let start := first.ofString rule.rhs
  start.terminals ++
    match start.hasEmpty, follow.get? rule.lhs with
    | true, some after => after.terminals
    | _, _ => []

/-- All claims, in the order of the rules. -/
def claims (g : Grammar) (first : FirstSets) (follow : FollowSets) : List Claim :=
  g.numberedRules.flatMap fun (r, rule) =>
    (selectors first follow rule).map fun x => ⟨⟨rule.lhs, x⟩, r⟩

/-- The other rule that a claim takes its cell from. -/
def displaced? (t : ParseTable) (c : Claim) : Option RuleId :=
  match t.cells[c.slot]? with
  | some (.rule r) => if r = c.rule then none else some r
  | _ => none

/-- Give a cell to the rule that claims it. -/
def place (t : ParseTable) (c : Claim) : ParseTable where
  cells := t.cells.insert c.slot (.rule c.rule)
  overwritten := t.overwritten + if (t.displaced? c).isSome then 1 else 0

/-! ## Recovery -/

/-- A table in which no rule claims anything yet. -/
def blank (g : Grammar) : ParseTable where
  cells := g.nonterminals.foldl
    (fun cells a => g.terminals.foldl (fun cells x => cells.insert ⟨a, x⟩ .explore) cells) ∅
  overwritten := 0

/-- Turn a cell to extraction unless a rule claims it. There must be a cell. -/
def extractAt (t : ParseTable) (slot : Slot) : ParseTable :=
  match t.cells[slot]? with
  | some .explore => { t with cells := t.cells.insert slot .extract }
  | _ => t

/-- The pairs of a nonterminal and a terminal that may follow it. -/
def followSlots (g : Grammar) (follow : FollowSets) : List Slot :=
  g.nonterminals.flatMap fun a =>
    match follow.get? a with
    | none => []
    | some s => s.terminals.map fun x => ⟨a, x⟩

/-! ## Whole tables -/

/-- The table of a grammar, with sets that may be those of another one. -/
def withSets (g : Grammar) (first : FirstSets) (follow : FollowSets) : ParseTable :=
  (followSlots g follow).foldl extractAt ((claims g first follow).foldl place (blank g))

/-- The table of a grammar with its own sets. -/
def ofGrammar (g : Grammar) : ParseTable :=
  let first := FirstSets.ofGrammar g
  withSets g first (FollowSets.ofGrammar g first)

end ParseTable

end Predictive
