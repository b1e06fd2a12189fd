-- SUMMARY: Parsers with a table of their own grammar never meet a missing cell or an unknown symbol.
import Predictive.Proofs.Grammar.Built
import Predictive.Proofs.Parse.Run
import Predictive.Proofs.ParseTable

/-!
# Safety

Two of the reasons to stop a run tell of a parser that does not fit its grammar: a nonterminal
without a usable cell, and a symbol that is neither a terminal nor a nonterminal. Neither occurs if
the grammar is built, its start symbol is classified and its input consists of terminals. Every
symbol that comes to the top of the stack is then classified, every pair of a nonterminal and a
terminal has a cell, and every rule in a cell exists. The sets that the table was made from do not
matter.
-/

namespace Predictive

/-- Every symbol on the stack is classified, and the input has nothing but terminals. -/
structure Machine.Classified (g : Grammar) (m : Machine) : Prop where
  stack : ∀ x ∈ m.config.stack, g.isTerminal x = true ∨ g.isNonterminal x = true
  input : ∀ x ∈ m.config.input, g.isTerminal x = true

namespace Machine.Classified

variable {g : Grammar} {m : Machine} (h : m.Classified g)
include h

theorem top (hwf : g.WellFormed) : g.isTerminal m.top = true ∨ g.isNonterminal m.top = true :=
  Machine.top_of_forall (P := fun x => g.isTerminal x = true ∨ g.isNonterminal x = true)
    (.inl hwf.terminal_endOfInput) h.stack

theorem lookahead (hwf : g.WellFormed) : g.isTerminal m.lookahead = true :=
  Machine.lookahead_of_forall (P := fun x => g.isTerminal x = true) hwf.terminal_endOfInput h.input

end Machine.Classified

namespace Parser

variable {p : Parser} {g : Grammar} {n : Nat} {m : Machine} {tokens : List Symbol}
  {first : FirstSets} {follow : FollowSets} {options : RunOptions} {action : Action}

theorem Classified.apply (hbuilt : p.grammar.Built) (h : m.Classified p.grammar) :
    (p.apply m action).Classified p.grammar where
  stack x hx := by
    rcases mem_stack_of_apply hx with hx | ⟨r, rule, hrule, hx⟩
    · exact h.stack x hx
    · exact hbuilt.classified (Grammar.mem_rules_of_rule? hrule) hx
  input x hx := h.input x (mem_input_of_apply hx)

theorem Classified.invariant (hbuilt : p.grammar.Built)
    (hstart : p.grammar.isTerminal p.grammar.start = true ∨
      p.grammar.isNonterminal p.grammar.start = true)
    (htokens : ∀ x ∈ tokens, p.grammar.isTerminal x = true) :
    p.Invariant tokens fun _ m => m.Classified p.grammar := by
  have hend : p.grammar.isTerminal Grammar.endOfInput = true :=
    hbuilt.wellFormed.terminal_endOfInput
  have hinit : (Machine.init p.grammar.start tokens).Classified p.grammar :=
    ⟨by simpa [Machine.init, hend] using hstart, by simpa [Machine.init, hend, or_imp, forall_and]⟩
  exact ⟨hinit, hinit, fun _ _ _ h _ => Classified.apply hbuilt h⟩

/-- A table made for a grammar has a usable cell for each nonterminal and each terminal. -/
theorem consult_ne_reject (hwf : g.WellFormed) {a x : Symbol} (ha : g.isNonterminal a = true)
    (hx : g.isTerminal x = true) (why : Rejection) :
    consult ⟨g, .withSets g first follow, options⟩ a x ≠ .reject why := by
  have hsome := ParseTable.isSome_get? first follow ((hwf.mem_nonterminals a).2 ha)
    ((g.mem_terminals x).2 hx)
  unfold consult
  split
  · next r hcell =>
    obtain ⟨rule, hrule, -⟩ := ParseTable.claims_of_get? hcell
    simp [hrule]
  · simp
  · simp
  · next hnone => simp [hnone] at hsome

/-- A classified machine is only stopped because its stack or its input is used up, or because of
    the limit. -/
theorem why_of_next_eq_reject (hwf : g.WellFormed) (h : m.Classified g) {why : Rejection}
    (hnext : next ⟨g, .withSets g first follow, options⟩ n m = .reject why) :
    why = .unexpectedEnd ∨ why = .inputExhausted ∨ why = .stepLimit := by
  unfold next at hnext
  split at hnext
  · cases hnext
    exact .inr (.inr rfl)
  · split at hnext
    · cases hnext
      exact .inr (.inl rfl)
    · by_cases htop : m.top = Grammar.endOfInput
      · by_cases hlook : m.lookahead = Grammar.endOfInput
        · simp [decide, htop, hlook] at hnext
        · simp only [decide, htop, hlook, if_true, if_false, Action.reject.injEq] at hnext
          exact .inl hnext.symm
      · cases hterm : g.isTerminal m.top with
        | true =>
          simp only [decide, htop, hterm, if_true, if_false] at hnext
          split at hnext <;> cases hnext
        | false =>
          have hnonterm : g.isNonterminal m.top = true := by simpa [hterm] using h.top hwf
          have hconsult : consult ⟨g, .withSets g first follow, options⟩ m.top m.lookahead =
              .reject why := by
            simpa [decide, htop, hterm, hnonterm] using hnext
          exact absurd hconsult (consult_ne_reject hwf hnonterm (h.lookahead hwf) why)

/-- No run on terminals stops for want of a cell or because of an unknown symbol. -/
theorem EndsWith.why_of_reject (hbuilt : g.Built)
    (hstart : g.isTerminal g.start = true ∨ g.isNonterminal g.start = true)
    (htokens : ∀ x ∈ tokens, g.isTerminal x = true) {t : Trace}
    (h : EndsWith ⟨g, .withSets g first follow, options⟩ tokens t) {s : Step} (hs : s ∈ t.steps)
    {why : Rejection} (hreject : s.action = .reject why) :
    why = .unexpectedEnd ∨ why = .inputExhausted ∨ why = .stepLimit := by
  have hinv := Classified.invariant (p := ⟨g, .withSets g first follow, options⟩) hbuilt hstart
    htokens
  obtain ⟨past, m, hm, -, hinit | ⟨n, haction⟩⟩ := hinv.of_mem_steps h hs
  · cases hinit.symm.trans hreject
  · exact why_of_next_eq_reject hbuilt.wellFormed hm (haction.symm.trans hreject)

end Parser

end Predictive
