-- SUMMARY: The order in which nonterminals and rules are added to a builder makes no difference to the analysis of the grammar, except where rules are in conflict.
import Predictive.Proofs.Lookahead.Rearrangement
import Predictive.Proofs.ParseTable.Rearrangement

/-!
# The order of rules

Two builders that collect the same in different orders make grammars with the same FIRST and FOLLOW
sets, and with tables that have the same kinds of cells and equally many conflicts. Without
conflicts the order of the rules can be seen in their numbers only.
-/

namespace Predictive

/-- The parsers of rearranged grammars without conflicts differ in the numbers of their rules. -/
theorem Grammar.Rearranges.renumbers {g g' : Grammar} (h : g.Rearranges g') (hwf : g.WellFormed)
    (hwf' : g'.WellFormed) {σ : RuleId ≃ RuleId} (hσ : ∀ r, g'.rule? (σ r) = g.rule? r)
    (hfree : (ParseTable.ofGrammar g).overwritten = 0) (options : RunOptions) :
    (Parser.ofGrammar g options).Renumbers σ (Parser.ofGrammar g' options) := by
  refine ⟨rfl, h.start, h.isTerminal, h.isNonterminal, hσ, fun a x => ?_⟩
  simp only [Parser.ofGrammar, ParseTable.ofGrammar, h.first_eq hwf hwf', h.follow_eq hwf hwf']
  exact ParseTable.get?_renumber h hσ hfree a x

namespace Builder

/-- Builders that collected the same in different orders lead to the same FIRST and FOLLOW sets and
    to tables with the same kinds of cells and equally many conflicts. Without conflicts the rules
    of one grammar are found in the other under different numbers, and under these numbers the
    tables and all runs that end are the same. -/
theorem Rearranges.same_analysis {steps steps' : List BuilderStep} {g g' : Grammar}
    (h : (ofSteps steps).Rearranges (ofSteps steps')) (hbuild : (ofSteps steps).build = .ok g)
    (hbuild' : (ofSteps steps').build = .ok g') :
    FirstSets.ofGrammar g' = FirstSets.ofGrammar g ∧
    FollowSets.ofGrammar g' (.ofGrammar g') = FollowSets.ofGrammar g (.ofGrammar g) ∧
    (∀ a x, ((ParseTable.ofGrammar g').get? a x).map Cell.kind =
      ((ParseTable.ofGrammar g).get? a x).map Cell.kind) ∧
    (ParseTable.ofGrammar g').overwritten = (ParseTable.ofGrammar g).overwritten ∧
    ((ParseTable.ofGrammar g).overwritten = 0 →
      ∃ σ : RuleId ≃ RuleId, (∀ r, g'.rule? (σ r) = g.rule? r) ∧
        (∀ a x, (ParseTable.ofGrammar g').get? a x =
          ((ParseTable.ofGrammar g).get? a x).map (Cell.renumber σ)) ∧
        ∀ options tokens t', (Parser.ofGrammar g' options).EndsWith tokens t' ↔
          ∃ t, (Parser.ofGrammar g options).EndsWith tokens t ∧ t' = t.renumber σ) := by
  have hwf := wellFormed_of_build hbuild
  have hwf' := wellFormed_of_build hbuild'
  have hgrammars := h.build hbuild hbuild'
  have hfirst := hgrammars.first_eq hwf hwf'
  have hfollow := hgrammars.follow_eq hwf hwf'
  obtain ⟨σ, hσ⟩ := hgrammars.exists_renumbering
  refine ⟨hfirst, by rw [hfirst, hfollow], fun a x => ?_, ?_, fun hfree => ⟨σ, hσ, ?_, ?_⟩⟩
  · simp only [ParseTable.ofGrammar, hfirst, hfollow]
    exact ParseTable.kind_of_rearranges hgrammars a x
  · simp only [ParseTable.ofGrammar, hfirst, hfollow]
    exact ParseTable.overwritten_renumber hσ
  · exact (hgrammars.renumbers hwf hwf' hσ hfree .unlimited).cell
  · exact fun options _ _ => (hgrammars.renumbers hwf hwf' hσ hfree options).endsWith_iff

/-! ## Two orders -/

/-- The steps that collect `A → a A`, `A → ε` and then `S → A b`, with `S` as start symbol. -/
def innerFirstSteps : List BuilderStep :=
  [.createSymbol (some "S"), .createSymbol (some "A"), .createSymbol (some "a"),
    .createSymbol (some "b"), .addRules ⟨2⟩ [[⟨3⟩, ⟨2⟩], []], .addRules ⟨1⟩ [[⟨2⟩, ⟨4⟩]],
    .setStart ⟨1⟩]

/-- The steps that collect the same rules the other way round. -/
def outerFirstSteps : List BuilderStep :=
  [.createSymbol (some "S"), .createSymbol (some "A"), .createSymbol (some "a"),
    .createSymbol (some "b"), .setStart ⟨1⟩, .addRules ⟨1⟩ [[⟨2⟩, ⟨4⟩]], .addRules ⟨2⟩ [[]],
    .addRules ⟨2⟩ [[⟨3⟩, ⟨2⟩]]]

theorem rearranges_innerFirst : (ofSteps innerFirstSteps).Rearranges (ofSteps outerFirstSteps) := by
  refine ⟨by decide +kernel, by decide +kernel, fun x => ?_, by decide +kernel⟩
  have hinner : (ofSteps innerFirstSteps).declared = #[⟨2⟩, ⟨1⟩] := by decide +kernel
  have houter : (ofSteps outerFirstSteps).declared = #[⟨1⟩, ⟨2⟩] := by decide +kernel
  simp [hinner, houter, or_comm]

theorem same_analysis_innerFirst : ∃ g g', (ofSteps innerFirstSteps).build = .ok g ∧
    (ofSteps outerFirstSteps).build = .ok g' ∧ (ParseTable.ofGrammar g).overwritten = 0 ∧
    g'.rules ≠ g.rules ∧ FirstSets.ofGrammar g' = FirstSets.ofGrammar g ∧
    ∃ σ : RuleId ≃ RuleId, (∀ r, g'.rule? (σ r) = g.rule? r) ∧
      ∀ options tokens t', (Parser.ofGrammar g' options).EndsWith tokens t' ↔
        ∃ t, (Parser.ofGrammar g options).EndsWith tokens t ∧ t' = t.renumber σ := by
  have hbuild : (ofSteps innerFirstSteps).build =
      .ok ((ofSteps innerFirstSteps).layout ⟨1⟩) := build_of_fault? (by decide +kernel) rfl
  have hbuild' : (ofSteps outerFirstSteps).build =
      .ok ((ofSteps outerFirstSteps).layout ⟨1⟩) := build_of_fault? (by decide +kernel) rfl
  have hfree : (ParseTable.ofGrammar ((ofSteps innerFirstSteps).layout ⟨1⟩)).overwritten = 0 := by
    decide +kernel
  obtain ⟨hfirst, -, -, -, hsame⟩ := rearranges_innerFirst.same_analysis hbuild hbuild'
  obtain ⟨σ, hσ, -, hruns⟩ := hsame hfree
  exact ⟨_, _, hbuild, hbuild', hfree, by decide +kernel, hfirst, σ, hσ, hruns⟩

end Builder

end Predictive
