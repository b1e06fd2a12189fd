-- SUMMARY: The derivation trees behind runs without errors, and the trees a parser without conflicts finds.
import Predictive.Proofs.Parse.Completeness
import Predictive.Proofs.Parse.Soundness

/-!
# Acceptance

A run without recovery that ends with only `$` on its stack has gone through a derivation tree, and
its table selects this tree. Together with completeness this tells exactly which strings a parser
without conflicts accepts without an error: those that have a tree in which, wherever a nonterminal
yields nothing, the next terminal is in the FOLLOW set that the table was made from.
-/

namespace Predictive.Parser

variable {p : Parser} {n : Nat} {m m' : Machine} {steps : List Step} {t : Trace}

/-- The steps of a path without recovery are the actions of a selected forest. Its roots were on the
    stack and its yield was in the input. -/
theorem exists_selected_of_path (hfits : p.table.Fits p.grammar) (h : p.Path n m steps m')
    (hnone : NoRecovery steps) (hbottom : m'.config.stack = [Grammar.endOfInput])
    {xs : List Symbol} (hstack : m.config.stack = xs ++ [Grammar.endOfInput]) :
    ∃ f : Forest, f.Valid p.grammar ∧ f.roots = xs ∧
      m.config.input = f.yield ++ m'.config.input ∧ f.Selected p.table m'.lookahead ∧
      steps.map Step.action = f.actions := by
  induction h generalizing xs with
  | nil n m =>
    obtain rfl : xs = [] := by simpa [hbottom] using hstack
    exact ⟨.nil, trivial, rfl, rfl, trivial, rfl⟩
  | @cons n m m' steps goes _ ih =>
    obtain ⟨-, htakes⟩ := takes_of_goes goes
    have hclean : (p.next n m).isRecovery = false := hnone ⟨m.config, p.next n m⟩ (by simp)
    have hrest : NoRecovery steps := fun s hs => hnone s (by simp [hs])
    generalize p.next n m = action at htakes hclean ih
    cases htakes with
    | matchTop above terminal agree =>
      obtain ⟨xs, rfl, htail⟩ := Machine.exists_rest hstack above
      obtain ⟨f, hvalid, hroots, hinput, hselected, hactions⟩ := ih hrest hbottom htail
      have hlook : m.config.input = m.top :: m.config.input.tail := by
        rw [agree]
        exact Machine.input_eq (agree ▸ above)
      refine ⟨.leaf m.top f, hvalid, by rw [Forest.roots, hroots], ?_, hselected, ?_⟩
      · rw [hlook]
        exact congrArg (m.top :: ·) hinput
      · simp [hactions]
    | @expand above notTerminal nonterminal r rule cell known =>
      obtain ⟨xs, rfl, htail⟩ := Machine.exists_rest hstack above
      have hnext : (p.apply m (.expand r)).config.stack =
          (rule.rhs ++ xs) ++ [Grammar.endOfInput] := by
        simp [apply, known, Machine.push, Machine.pop, htail]
      obtain ⟨f, hvalid, hroots, hinput, hselected, hactions⟩ := ih hrest hbottom hnext
      obtain ⟨below, rest, rfl, hbelow, hright⟩ := Forest.exists_append_of_roots hroots
      have hsame : (p.apply m (.expand r)).config.input = m.config.input := by
        simp [apply, known, Machine.push, Machine.pop]
      rw [hsame, Forest.yield_append] at hinput
      rw [Forest.valid_append] at hvalid
      rw [Forest.selected_append] at hselected
      have hlhs : rule.lhs = m.top := hfits _ _ r rule cell known
      have hlook : m.lookahead = below.yield.headD (rest.yield.headD m'.lookahead) := by
        simp [Machine.lookahead, hinput]
      refine ⟨.node m.top r below rest, ⟨?_, hvalid⟩, by rw [Forest.roots, hright], hinput,
        ⟨hlook ▸ cell, hselected⟩, ?_⟩
      · rw [known, hbelow, ← hlhs]
      · simp [hactions, Forest.actions_append]
    | mismatch => simp [Action.isRecovery] at hclean
    | extract => simp [Action.isRecovery] at hclean
    | explore => simp [Action.isRecovery] at hclean

/-- A run that accepts without an error, with only `$` left, goes through a selected tree. -/
theorem EndsWith.exists_tree (hfits : p.table.Fits p.grammar) {tokens : List Symbol}
    (h : p.EndsWith tokens t) (haccept : t.status = .accepted) (hclean : t.hasErrors = false)
    (hbottom : t.lastStack? = some [Grammar.endOfInput]) :
    ∃ f : Forest, f.IsTree p.grammar p.grammar.start t.matched ∧ t.GoesThrough f ∧
      f.Selected p.table Grammar.endOfInput := by
  obtain ⟨pre, m, status, hpath, hstops, rfl⟩ := endsWith_iff.1 h
  obtain rfl : status = .accepted := haccept
  obtain ⟨haction, -, hlook⟩ := next_eq_accept hstops
  have hnone : NoRecovery pre := by
    intro s hs
    exact noRecovery_of_hasErrors hclean s (by simp [hs])
  have hstack : m.config.stack = [Grammar.endOfInput] := by
    rw [Trace.lastStack?_concat] at hbottom
    exact Option.some.inj hbottom
  have hinit : (Machine.init p.grammar.start tokens).config.stack =
      [p.grammar.start] ++ [Grammar.endOfInput] := rfl
  obtain ⟨f, hvalid, hroots, -, hselected, hactions⟩ :=
    exists_selected_of_path hfits hpath hnone hstack hinit
  rw [hlook] at hselected
  have hthrough : Trace.GoesThrough _ f :=
    ⟨rfl, by simp [Trace.actions, hactions, haction], hbottom⟩
  exact ⟨f, ⟨hvalid, hroots, hthrough.matched.symm⟩, hthrough, hselected⟩

/-- Without conflicts, a string of terminals is accepted without an error exactly if it has a tree
    that the FOLLOW sets are large enough for. -/
theorem exists_clean_run_iff {g : Grammar} (hwf : g.WellFormed) {follow : FollowSets}
    (hfree : (ParseTable.withSets g (.ofGrammar g) follow).overwritten = 0) {w : List Symbol}
    (hterm : ∀ x ∈ w, g.isTerminal x = true ∧ x ≠ Grammar.endOfInput) :
    (∃ t, EndsWith ⟨g, .withSets g (.ofGrammar g) follow, .unlimited⟩ w t ∧
      t.status = .accepted ∧ t.hasErrors = false ∧ t.matched = w ∧
      t.lastStack? = some [Grammar.endOfInput]) ↔
    ∃ f : Forest, f.IsTree g g.start w ∧ f.Followed follow Grammar.endOfInput := by
  refine ⟨?_, ?_⟩
  · rintro ⟨t, hends, haccept, hclean, rfl, hbottom⟩
    obtain ⟨f, hf, -, hselected⟩ := hends.exists_tree
      (ParseTable.fits_withSets g (.ofGrammar g) follow) haccept hclean hbottom
    exact ⟨f, hf, hselected.followed hwf hfree hf.valid⟩
  · rintro ⟨f, hf, hfollowed⟩
    have hselected := hfollowed.selected hwf hfree hf.valid (hf.terminal hterm)
    obtain ⟨t, hends, hthrough⟩ := endsWith_of_selected hwf hf hterm hselected
    exact ⟨t, hends, hthrough.accepted, hthrough.hasErrors, by rw [hthrough.matched, hf.yield],
      hthrough.bottom⟩

end Predictive.Parser
