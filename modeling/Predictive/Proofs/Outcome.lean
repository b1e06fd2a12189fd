-- SUMMARY: How the runs of analyses end, and what an acceptance without an error says about the tokens.
import Predictive.Proofs.Analysis
import Predictive.Proofs.Parse.Safety

/-!
# Outcomes

The parser of an analysis fits its grammar, so its run is accepted, or it is rejected since the
stack or the input is used up or the step limit is met. An acceptance without an error proves that
the start symbol derives the tokens followed by what is left on the stack above the lowest `$`.
Nothing is left there unless a rule has `$` on its right: the parser takes every `$` on top of the
stack for the bottom.
-/

namespace Predictive

namespace Parser

variable {g : Grammar} {first : FirstSets} {follow : FollowSets} {options : RunOptions}
  {tokens : List Symbol} {t : Trace}

/-- What the end of a run on terminals can be. -/
theorem EndsWith.status_cases (hbuilt : g.Built)
    (hstart : g.isTerminal g.start = true ∨ g.isNonterminal g.start = true)
    (htokens : ∀ x ∈ tokens, g.isTerminal x = true)
    (h : EndsWith ⟨g, .withSets g first follow, options⟩ tokens t) :
    t.status = .accepted ∨ t.status = .rejected .unexpectedEnd ∨
      t.status = .rejected .inputExhausted ∨ t.status = .rejected .stepLimit := by
  have hreject : ∀ s ∈ t.steps, ∀ why, s.action = .reject why →
      why = .unexpectedEnd ∨ why = .inputExhausted ∨ why = .stepLimit :=
    fun s hs why => h.why_of_reject hbuilt hstart htokens hs
  obtain ⟨pre, m, status, -, hstops, rfl⟩ := endsWith_iff.1 h
  generalize next _ pre.length m = action at hstops hreject
  cases action with
  | accept => exact .inl (Option.some.inj hstops).symm
  | reject why =>
    obtain rfl : status = .rejected why := (Option.some.inj hstops).symm
    rcases hreject ⟨m.config, .reject why⟩ (by simp) why rfl with rfl | rfl | rfl
    · exact .inr (.inl rfl)
    · exact .inr (.inr (.inl rfl))
    · exact .inr (.inr (.inr rfl))
  | init => cases hstops
  | matchTop => cases hstops
  | mismatch => cases hstops
  | expand => cases hstops
  | extract => cases hstops
  | explore => cases hstops

end Parser

namespace Analysis

variable {listing input : String} {options : RunOptions} {a : Analysis}

theorem nonterminal_start_of_ofText (h : ofText listing input options = .ok a) :
    a.grammar.isNonterminal a.grammar.start = true :=
  Grammar.nonterminal_start_of_load (load_of_ofText h)

/-! ## How runs end -/

/-- With a table of its own grammar the parser never lacks a cell and never meets an unknown symbol.
    So the run of an analysis, which is the recorded one unless it is longer than any run that is
    waited for, is accepted or is rejected for one of the three other reasons. With a step limit the
    recorded run always comes to its end. -/
theorem fatal_unreachable :
    (∀ (g : Grammar) (options : RunOptions) (tokens : List Symbol) (t : Trace), g.Built →
      (g.isTerminal g.start = true ∨ g.isNonterminal g.start = true) →
      (∀ x ∈ tokens, g.isTerminal x = true) →
      Parser.EndsWith (.ofGrammar g options) tokens t →
      ∀ s ∈ t.steps, s.action ≠ .reject .noRule ∧ s.action ≠ .reject .unknownSymbol) ∧
    (∀ (listing input : String) (options : RunOptions) (a : Analysis),
      ofText listing input options = .ok a →
      (∀ t, Parser.EndsWith ⟨a.grammar, a.table, options⟩ a.tokens t →
        (t.status = .accepted ∨ t.status = .rejected .unexpectedEnd ∨
          t.status = .rejected .inputExhausted ∨ t.status = .rejected .stepLimit) ∧
        (a.trace = t ∨ options.stepLimit? = none ∧ RunOptions.patience + 1 < t.steps.length)) ∧
      (options.stepLimit? ≠ none →
        Parser.EndsWith ⟨a.grammar, a.table, options⟩ a.tokens a.trace)) := by
  refine ⟨?_, ?_⟩
  · intro g options tokens t hbuilt hstart htokens hends s hs
    refine ⟨fun hreject => ?_, fun hreject => ?_⟩
    · simpa using hends.why_of_reject hbuilt hstart htokens hs hreject
    · simpa using hends.why_of_reject hbuilt hstart htokens hs hreject
  · intro listing input options a h
    obtain ⟨hbuilt, -, -, htable, htokens, htrace⟩ := proper_of_ofText h
    refine ⟨fun t hends => ⟨?_, ?_⟩, fun hlimit => ?_⟩
    · rw [htable] at hends
      exact hends.status_cases hbuilt (.inr (nonterminal_start_of_ofText h))
        fun x hx => (htokens x hx).1
    · rw [htrace]
      exact hends.parse_eq
    · obtain ⟨limit, hlimit⟩ := Option.ne_none_iff_exists'.1 hlimit
      rw [htrace]
      exact Parser.endsWith_parse hlimit a.tokens

theorem fatal_unreachable_nested : ∃ a t, ofText "S → a S b | ε" "a" ⟨some 100⟩ = .ok a ∧
    a.grammar.Built ∧ a.grammar.isNonterminal a.grammar.start = true ∧
    (∀ x ∈ a.tokens, a.grammar.isTerminal x = true) ∧
    Parser.EndsWith (.ofGrammar a.grammar ⟨some 100⟩) a.tokens t ∧
    (∀ s ∈ t.steps, s.action ≠ .reject .noRule ∧ s.action ≠ .reject .unknownSymbol) ∧
    Parser.EndsWith ⟨a.grammar, a.table, ⟨some 100⟩⟩ a.tokens a.trace ∧
    a.trace.status = .rejected .inputExhausted ∧
    (a.trace.status = .accepted ∨ a.trace.status = .rejected .unexpectedEnd ∨
      a.trace.status = .rejected .inputExhausted ∨ a.trace.status = .rejected .stepLimit) := by
  obtain ⟨a, hok, hstatus⟩ := exists_of_ofText
    (fun a => a.trace.status = .rejected .inputExhausted)
    (by decide +kernel : (ofText "S → a S b | ε" "a" ⟨some 100⟩).toOption.any _ = true)
  have hbuilt := (proper_of_ofText hok).built
  have hstart := nonterminal_start_of_ofText hok
  have htokens := fun x hx => ((proper_of_ofText hok).tokens x hx).1
  have hlimited := Parser.endsWith_parse (p := .ofGrammar a.grammar ⟨some 100⟩) rfl a.tokens
  have hsteps := fatal_unreachable.1 _ _ _ _ hbuilt (.inr hstart) htokens hlimited
  obtain ⟨hcases, hends⟩ := fatal_unreachable.2 _ _ _ _ hok
  have hends := hends (by simp)
  exact ⟨a, _, hok, hbuilt, hstart, htokens, hlimited, hsteps, hends, hstatus, (hcases _ hends).1⟩

/-! ## What acceptance proves -/

/-- When a run accepts without an error, the start symbol derives the tokens and what is left above
    the lowest `$`. If anything is left, then `$` comes first in it. So the tokens themselves are
    derived whenever nothing is left, as it is if no rule has `$` on its right. -/
theorem derives_of_accepted (h : ofText listing input options = .ok a)
    (haccept : a.trace.status = .accepted) (hclean : a.trace.hasErrors = false) :
    ∃ rest, a.trace.lastStack? = some (rest ++ [Grammar.endOfInput]) ∧
      a.grammar.DerivesLeftmost [a.grammar.start] (a.tokens ++ rest) ∧
      (rest = [] ∨ rest.head? = some Grammar.endOfInput) ∧
      ((∀ rule ∈ a.grammar.rules, Grammar.endOfInput ∉ rule.rhs) → rest = []) := by
  obtain ⟨hbuilt, -, -, htable, htokens, htrace⟩ := proper_of_ofText h
  have hfits : a.table.Fits a.grammar := htable ▸ ParseTable.fits_withSets _ _ _
  rw [htrace] at haccept hclean ⊢
  obtain ⟨rest, hstack, hderives, hhead⟩ :=
    Parser.derives_of_clean hfits (fun x hx => (htokens x hx).2) haccept hclean
  refine ⟨rest, hstack, hderives, hhead, fun hrules => hhead.resolve_right fun hend => ?_⟩
  have hstart := hbuilt.wellFormed.ne_endOfInput (nonterminal_start_of_ofText h)
  have hall := hderives.derives.forall_mem (P := (· ≠ Grammar.endOfInput))
    (fun rule hrule x hx => ne_of_mem_of_not_mem hx (hrules rule hrule)) (by simpa using hstart)
  exact hall _ (List.mem_append_right _ (List.mem_of_head? hend)) rfl

theorem derives_of_accepted_nested : ∃ a, ofText "S → a S b | ε" "a b" .unlimited = .ok a ∧
    a.trace.status = .accepted ∧ a.trace.hasErrors = false ∧
    (∀ rule ∈ a.grammar.rules, Grammar.endOfInput ∉ rule.rhs) ∧
    a.grammar.DerivesLeftmost [a.grammar.start] a.tokens := by
  obtain ⟨a, hok, haccept, hclean, hrules⟩ := exists_of_ofText
    (fun a => a.trace.status = .accepted ∧ a.trace.hasErrors = false ∧
      ∀ rule ∈ a.grammar.rules, Grammar.endOfInput ∉ rule.rhs)
    (by decide +kernel : (ofText "S → a S b | ε" "a b" .unlimited).toOption.any _ = true)
  obtain ⟨rest, -, hderives, -, hrest⟩ := derives_of_accepted hok haccept hclean
  rw [hrest hrules, List.append_nil] at hderives
  exact ⟨a, hok, haccept, hclean, hrules, hderives⟩

/-- With a `$` on the right of a rule the tokens need not be derived: the parser accepts `a` with
    `$ b` above the bottom of its stack, but every string derived from `S`, other than `S` itself,
    has a `$`. -/
theorem accepts_underived : ∃ a, ofText "S → a $ b" "a" .unlimited = .ok a ∧
    a.trace.status = .accepted ∧ a.trace.hasErrors = false ∧
    a.trace.lastStack? = some [Grammar.endOfInput, ⟨3⟩, Grammar.endOfInput] ∧
    ¬ a.grammar.Derives [a.grammar.start] a.tokens := by
  obtain ⟨a, hok, haccept, hclean, hstack, hrules, hne, hend⟩ := exists_of_ofText
    (fun a => a.trace.status = .accepted ∧ a.trace.hasErrors = false ∧
      a.trace.lastStack? = some [Grammar.endOfInput, ⟨3⟩, Grammar.endOfInput] ∧
      (∀ rule ∈ a.grammar.rules, Grammar.endOfInput ∈ rule.rhs) ∧
      a.tokens ≠ [a.grammar.start] ∧ Grammar.endOfInput ∉ a.tokens)
    (by decide +kernel : (ofText "S → a $ b" "a" .unlimited).toOption.any _ = true)
  exact ⟨a, hok, haccept, hclean, hstack,
    fun hderives => (hderives.eq_or_mem hrules).elim hne hend⟩

end Analysis

end Predictive
