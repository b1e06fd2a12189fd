-- SUMMARY: What the analysis of a text guarantees about its grammar, its tokens and its run.
import Predictive.Analysis
import Predictive.Proofs.Grammar.Listing
import Predictive.Proofs.Parse.Acceptance
import Predictive.Proofs.Vocabulary

/-!
# Analyses

An analysis that gets to parsing has a built grammar, tokens that are terminals of this grammar, and
a table made from the grammar's own sets. If the table has no conflict, then its run is free of
errors exactly if the tokens have a derivation tree that the FOLLOW sets are large enough for. It is
not enough that the tokens are derived, since FOLLOW looks no further than at one symbol.
-/

namespace Predictive

namespace Analysis

variable {listing input : String} {options : RunOptions} {a : Analysis}

/-- What an analysis is made of. -/
structure Proper (a : Analysis) (options : RunOptions) : Prop where
  built : a.grammar.Built
  first : a.first = .ofGrammar a.grammar
  follow : a.follow = .ofGrammar a.grammar a.first
  table : a.table = .withSets a.grammar a.first a.follow
  tokens : ∀ x ∈ a.tokens, a.grammar.isTerminal x = true ∧ x ≠ Grammar.endOfInput
  trace : a.trace = Parser.parse ⟨a.grammar, a.table, options⟩ a.tokens

theorem load_of_ofText (h : ofText listing input options = .ok a) :
    Grammar.load listing = .ok a.grammar := by
  unfold ofText at h
  split at h
  · cases h
  · next g hload =>
    split at h
    · cases h
    · cases h
    · cases h
      exact hload

theorem proper_of_ofText (h : ofText listing input options = .ok a) : a.Proper options := by
  unfold ofText at h
  split at h
  · cases h
  · next g hload =>
    split at h
    · cases h
    · cases h
    · next tokens _ htokens =>
      cases h
      exact ⟨Grammar.built_of_load hload, rfl, rfl, rfl, Grammar.terminal_of_tokenize htokens, rfl⟩

/-- The run on the tokens, without any bound on its length, accepts without an error what was put
    in, and leaves nothing on its stack. The recorded trace is this run, unless it is longer than
    any run that is waited for. -/
def RunsClean (a : Analysis) : Prop :=
  ∃ t, Parser.EndsWith ⟨a.grammar, a.table, .unlimited⟩ a.tokens t ∧ t.status = .accepted ∧
    t.hasErrors = false ∧ t.matched = a.tokens ∧ t.lastStack? = some [Grammar.endOfInput] ∧
    (t.steps.length ≤ RunOptions.patience + 1 → a.trace = t)

/-- Without conflicts the run is free of errors exactly if the tokens have a derivation tree in
    which, wherever a nonterminal yields nothing, the token after it is in its FOLLOW set. If the
    FOLLOW sets satisfy the textbook equations, then every derivation will do. -/
theorem runsClean_iff (h : ofText listing input .unlimited = .ok a)
    (hfree : a.table.overwritten = 0) :
    (a.RunsClean ↔ ∃ f : Forest, f.IsTree a.grammar a.grammar.start a.tokens ∧
      f.Followed a.follow Grammar.endOfInput) ∧
    (a.follow.Closed a.grammar a.first → a.grammar.Derives [a.grammar.start] a.tokens →
      a.RunsClean) := by
  obtain ⟨hbuilt, hfirst, -, htable, htokens, htrace⟩ := proper_of_ofText h
  have hwf := hbuilt.wellFormed
  rw [htable, hfirst] at hfree
  have hruns := Parser.exists_clean_run_iff hwf hfree htokens
  rw [← hfirst, ← htable] at hruns
  have hclean : a.RunsClean ↔ ∃ f : Forest, f.IsTree a.grammar a.grammar.start a.tokens ∧
      f.Followed a.follow Grammar.endOfInput := by
    rw [← hruns]
    refine ⟨?_, ?_⟩
    · rintro ⟨t, hends, haccept, herrors, hmatched, hbottom, -⟩
      exact ⟨t, hends, haccept, herrors, hmatched, hbottom⟩
    · rintro ⟨t, hends, haccept, herrors, hmatched, hbottom⟩
      refine ⟨t, hends, haccept, herrors, hmatched, hbottom, fun hlen => ?_⟩
      rw [htrace]
      exact hends.parseWithin_eq hlen
  refine ⟨hclean, fun hclosed hderives => hclean.2 ?_⟩
  obtain ⟨f, hf⟩ := Forest.derives_iff_exists_isTree.1 hderives
  rw [hfirst] at hclosed
  refine ⟨f, hf, hclosed.followed hwf hf.valid (hf.terminal htokens) ?_⟩
  rw [hf.roots]
  exact hclosed.admits_start

/-- What can be computed from a successful analysis is true of it. -/
theorem exists_of_ofText (P : Analysis → Prop) [DecidablePred P]
    (h : (ofText listing input options).toOption.any (fun a => decide (P a)) = true) :
    ∃ a, ofText listing input options = .ok a ∧ P a :=
  exists_ok_of_any P h

theorem runsClean_nested : ∃ a, ofText "S → a S b | ε" "a b" .unlimited = .ok a ∧
    a.table.overwritten = 0 ∧
    (∃ f : Forest, f.IsTree a.grammar a.grammar.start a.tokens ∧
      f.Followed a.follow Grammar.endOfInput) ∧ a.RunsClean := by
  obtain ⟨a, hok, hfree, htree, hfollowed⟩ := exists_of_ofText
    (fun a => a.table.overwritten = 0 ∧
      Parser.nestedTree.IsTree a.grammar a.grammar.start a.tokens ∧
      Parser.nestedTree.Followed a.follow Grammar.endOfInput)
    (by decide +kernel : (ofText "S → a S b | ε" "a b" .unlimited).toOption.any _ = true)
  have hclean := (runsClean_iff hok hfree).1.2 ⟨_, htree, hfollowed⟩
  exact ⟨a, hok, hfree, ⟨_, htree, hfollowed⟩, hclean⟩

/-- The tree of `d`, in which `A` yields nothing before the empty `B`. -/
def erasedTree : Forest :=
  .node ⟨1⟩ ⟨0⟩ (.node ⟨2⟩ ⟨2⟩ .nil (.node ⟨3⟩ ⟨3⟩ .nil (.leaf ⟨4⟩ .nil))) .nil

/-- Without conflicts a derivation alone is not enough: `d` follows `A` behind the empty `B`, but
    FOLLOW of `A` does not have it, so the parser discards `d` and fails. -/
theorem rejects_derived : ∃ a, ofText "S → A B d\nA → x | ε\nB → ε" "d" .unlimited = .ok a ∧
    a.table.overwritten = 0 ∧ a.grammar.Derives [a.grammar.start] a.tokens ∧
    a.trace.status = .rejected .inputExhausted ∧ a.trace.hasErrors = true ∧
    a.trace.matched ≠ a.tokens := by
  obtain ⟨a, hok, hfree, htree, hstatus, herrors, hmatched⟩ := exists_of_ofText
    (fun a => a.table.overwritten = 0 ∧
      erasedTree.IsTree a.grammar a.grammar.start a.tokens ∧
      a.trace.status = .rejected .inputExhausted ∧ a.trace.hasErrors = true ∧
      a.trace.matched ≠ a.tokens)
    (by decide +kernel :
      (ofText "S → A B d\nA → x | ε\nB → ε" "d" .unlimited).toOption.any _ = true)
  have hderives := Forest.derives_iff_exists_isTree.2 ⟨_, htree⟩
  exact ⟨a, hok, hfree, hderives, hstatus, herrors, hmatched⟩

end Analysis

end Predictive
