-- SUMMARY: Builders that collected the same in different orders make grammars that differ in the order of their nonterminals and rules only.
import Mathlib.Logic.Equiv.Basic
import Predictive.Proofs.Grammar.History
import Predictive.Proofs.Grammar.Renaming

/-!
# Rearrangements

Two builders may have collected the same nonterminals and the same rules, each in its own order. The
walks over them then order the nonterminals differently, and the rules get other numbers. Nothing
else of the grammars differs, and the numbers of one are found from those of the other.
-/

namespace Predictive

namespace Grammar

/-- The second grammar has the symbols and the rules of the first one, in any order. -/
structure Rearranges (g g' : Grammar) : Prop where
  start : g'.start = g.start
  terminalSet : g'.terminalSet = g.terminalSet
  nonterminalSet : g'.nonterminalSet = g.nonterminalSet
  nonterminals : g'.nonterminals.Perm g.nonterminals
  rules : g'.rules.toList.Perm g.rules.toList

namespace Rearranges

variable {g g' : Grammar} (h : g.Rearranges g')
include h

theorem isTerminal (x : Symbol) : g'.isTerminal x = g.isTerminal x := by
  rw [Grammar.isTerminal, h.terminalSet, ← Grammar.isTerminal]

theorem isNonterminal (x : Symbol) : g'.isNonterminal x = g.isNonterminal x := by
  rw [Grammar.isNonterminal, h.nonterminalSet, ← Grammar.isNonterminal]

theorem terminals : g'.terminals = g.terminals := by
  rw [Grammar.terminals, h.terminalSet, ← Grammar.terminals]

theorem mem_rules (rule : Rule) : rule ∈ g'.rules ↔ rule ∈ g.rules := by
  rw [← Array.mem_toList_iff, h.rules.mem_iff, Array.mem_toList_iff]

end Rearranges

end Grammar

/-! ## Numbers -/

/-- Keep position zero and renumber the positions after it. -/
def shiftPositions (σ : Nat ≃ Nat) : Nat ≃ Nat where
  toFun
    | 0 => 0
    | i + 1 => σ i + 1
  invFun
    | 0 => 0
    | i + 1 => σ.symm i + 1
  left_inv i := by cases i <;> simp
  right_inv i := by cases i <;> simp

/-- A rearranged list has its elements at renumbered positions. -/
theorem exists_positions_of_perm {α : Type} {xs ys : List α} (h : xs.Perm ys) :
    ∃ σ : Nat ≃ Nat, ∀ i, ys[σ i]? = xs[i]? := by
  induction h with
  | nil => exact ⟨.refl Nat, fun _ => rfl⟩
  | cons x _ ih =>
    obtain ⟨σ, hσ⟩ := ih
    refine ⟨shiftPositions σ, fun i => ?_⟩
    cases i with
    | zero => rfl
    | succ i => simpa [shiftPositions] using hσ i
  | swap x y xs =>
    refine ⟨.swap 0 1, fun i => ?_⟩
    match i with
    | 0 => simp
    | 1 => simp
    | i + 2 => simp [Equiv.swap_apply_of_ne_of_ne]
  | trans _ _ ih₁ ih₂ =>
    obtain ⟨σ, hσ⟩ := ih₁
    obtain ⟨τ, hτ⟩ := ih₂
    exact ⟨σ.trans τ, fun i => (hτ (σ i)).trans (hσ i)⟩

/-- Rules are numbered by their positions. -/
def RuleId.ofPositions (σ : Nat ≃ Nat) : RuleId ≃ RuleId where
  toFun r := ⟨σ r.index⟩
  invFun r := ⟨σ.symm r.index⟩
  left_inv r := by simp
  right_inv r := by simp

/-- The rules of a rearranged grammar are those of the first one, with other numbers. -/
theorem Grammar.Rearranges.exists_renumbering {g g' : Grammar} (h : g.Rearranges g') :
    ∃ σ : RuleId ≃ RuleId, ∀ r, g'.rule? (σ r) = g.rule? r := by
  obtain ⟨σ, hσ⟩ := exists_positions_of_perm h.rules.symm
  refine ⟨RuleId.ofPositions σ, fun r => ?_⟩
  simpa [Grammar.rule?, RuleId.ofPositions] using hσ r.index

/-! ## Builders -/

namespace Builder

/-- The second builder has collected what the first one has, in any order. -/
structure Rearranges (b b' : Builder) : Prop where
  table : b'.table = b.table
  start? : b'.start? = b.start?
  mem_declared : ∀ x, x ∈ b'.declared ↔ x ∈ b.declared
  rules : b'.rules.toList.Perm b.rules.toList

variable {b b' : Builder} {steps steps' : List BuilderStep} {g g' : Grammar} {x : Symbol}

/-! ### The width of the sets of symbols -/

theorem width_nonterminalSet (h : b.fault? = none) : b.nonterminalSet.width = b.table.size := by
  rw [nonterminalSet, SymbolSet.width_foldl_insert, SymbolSet.width_filled]
  intro x hx
  obtain ⟨start, -, -, hdeclared, -⟩ := exists_start_of_fault? h
  rw [SymbolSet.width_filled]
  exact (hdeclared x (Array.mem_toList_iff.1 hx)).1

theorem width_terminalSet (h : b.fault? = none) : b.terminalSet.width = b.table.size := by
  obtain ⟨start, -, hstart, -, hmentioned⟩ := exists_start_of_fault? h
  dsimp only [terminalSet]
  rw [SymbolSet.width_foldl_insert, SymbolSet.width_filled]
  intro x hx
  rw [SymbolSet.width_filled]
  rcases List.mem_cons.1 hx with rfl | hx
  · exact Nat.zero_lt_of_lt hstart
  · exact hmentioned x (List.mem_filter.1 hx).1

/-! ### The grammars of two builders -/

theorem terminalSet_layout (b : Builder) (start : Symbol) :
    (b.layout start).terminalSet = b.terminalSet := by
  simp only [layout]

theorem nonterminalSet_layout (b : Builder) (start : Symbol) :
    (b.layout start).nonterminalSet = b.nonterminalSet := by
  simp only [layout]

/-- The layout of a grammar only rearranges the rules. -/
theorem rules_layout_perm (hlhs : ∀ rule ∈ b.rules, rule.lhs ∈ b.declared)
    (hnodup : b.declared.toList.Nodup) (start : Symbol) :
    (b.layout start).rules.toList.Perm b.rules.toList := by
  refine List.perm_iff_count.2 fun rule => ?_
  have hcount := congrArg (List.count rule) (filter_rules_layout hlhs hnodup start rule.lhs)
  rw [rulesFor, List.count_filter (by simp), List.count_filter (by simp)] at hcount
  exact hcount

namespace Rearranges

section

variable (h : b.Rearranges b')
include h

theorem mem_mentioned : x ∈ b'.mentioned ↔ x ∈ b.mentioned := by
  simp only [mentioned, List.mem_flatMap, h.rules.mem_iff]

variable (hfault : b.fault? = none) (hfault' : b'.fault? = none)
include hfault hfault'

theorem nonterminalSet_eq : b'.nonterminalSet = b.nonterminalSet := by
  refine SymbolSet.eq_of_contains ?_ fun x => ?_
  · rw [width_nonterminalSet hfault', width_nonterminalSet hfault, h.table]
  · rw [Bool.eq_iff_iff, contains_nonterminalSet, contains_nonterminalSet, h.mem_declared]

theorem terminalSet_eq : b'.terminalSet = b.terminalSet := by
  refine SymbolSet.eq_of_contains ?_ fun x => ?_
  · rw [width_terminalSet hfault', width_terminalSet hfault, h.table]
  · rw [Bool.eq_iff_iff, contains_terminalSet, contains_terminalSet, h.mem_mentioned,
      h.mem_declared]

end

/-- Builders with the same symbols, start symbol, nonterminals and rules make the same grammar, but
    for the order in it. -/
theorem build (h : (ofSteps steps).Rearranges (ofSteps steps'))
    (hbuild : (ofSteps steps).build = .ok g) (hbuild' : (ofSteps steps').build = .ok g') :
    g.Rearranges g' := by
  obtain ⟨hfault, start, hstart, rfl⟩ := build_eq_ok hbuild
  obtain ⟨hfault', start', hstart', rfl⟩ := build_eq_ok hbuild'
  obtain rfl : start' = start := by simpa [hstart, hstart'] using h.start?
  refine ⟨rfl, ?_, ?_, ?_, ?_⟩
  · rw [terminalSet_layout, terminalSet_layout, h.terminalSet_eq hfault hfault']
  · rw [nonterminalSet_layout, nonterminalSet_layout, h.nonterminalSet_eq hfault hfault']
  · rw [nonterminals_layout, nonterminals_layout]
    refine (List.perm_ext_iff_of_nodup ?_ ?_).2 fun x => ?_
    · exact RuleGraph.nodup_order (nodup_declared steps') start'
    · exact RuleGraph.nodup_order (nodup_declared steps) start'
    · rw [mem_order, mem_order, h.mem_declared]
  · have hperm := rules_layout_perm (fun _ => lhs_mem_declared) (nodup_declared steps) start'
    have hperm' := rules_layout_perm (fun _ => lhs_mem_declared) (nodup_declared steps') start'
    exact hperm'.trans (h.rules.trans hperm.symm)

end Rearranges

end Builder

end Predictive
