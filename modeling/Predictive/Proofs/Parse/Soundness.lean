-- SUMMARY: Runs without extraction follow leftmost derivations, and runs without errors read their input.
import Predictive.Proofs.Derivation.Basic
import Predictive.Proofs.Grammar.Built
import Predictive.Proofs.Parse.Run
import Predictive.Proofs.ParseTable

/-!
# Soundness

What a run has matched, followed by what it still has on its stack, is derived from the start symbol
as long as nothing was extracted. This needs no property of the sets that the table was made from:
a rule in a cell belongs to the nonterminal of the cell, and discarding input changes no stack.
-/

namespace Predictive

/-- The rules that a table has for a nonterminal rewrite this nonterminal. -/
def ParseTable.Fits (t : ParseTable) (g : Grammar) : Prop :=
  ∀ a x r rule, t.get? a x = some (.rule r) → g.rule? r = some rule → rule.lhs = a

theorem ParseTable.fits_withSets (g : Grammar) (first : FirstSets) (follow : FollowSets) :
    (withSets g first follow).Fits g := by
  intro a x r rule hcell hrule
  obtain ⟨rule', hrule', hlhs, -⟩ := claims_of_get? hcell
  obtain rfl : rule = rule' := by simpa [hrule] using hrule'
  exact hlhs

/-- The terminals that some steps match, in order. -/
def Step.matchedIn (steps : List Step) : List Symbol :=
  steps.filterMap Step.matched?

@[simp] theorem Step.matchedIn_nil : matchedIn [] = [] := rfl

@[simp] theorem Step.matchedIn_append (steps : List Step) (s : Step) :
    matchedIn (steps ++ [s]) = matchedIn steps ++ s.matched?.toList := by
  cases h : s.matched? <;> simp [matchedIn, h]

theorem Trace.matched_eq (t : Trace) : t.matched = Step.matchedIn t.steps := rfl

/-- Above the bottom, the top of the stack is a symbol of the derived string. -/
theorem Machine.exists_rest {m : Machine} {rest : List Symbol}
    (hstack : m.config.stack = rest ++ [Grammar.endOfInput])
    (above : m.top ≠ Grammar.endOfInput) :
    ∃ rest', rest = m.top :: rest' ∧ m.config.stack.tail = rest' ++ [Grammar.endOfInput] := by
  cases rest with
  | nil => simp [Machine.top, hstack] at above
  | cons x rest => exact ⟨rest, by simp [Machine.top, hstack], by simp [hstack]⟩

namespace Parser

/-- None of the steps drops a nonterminal. -/
def NoExtract (steps : List Step) : Prop :=
  ∀ s ∈ steps, ∀ a x, s.action ≠ .extract a x

/-- None of the steps recovers from an error. -/
def NoRecovery (steps : List Step) : Prop :=
  ∀ s ∈ steps, s.action.isRecovery = false

theorem noRecovery_of_hasErrors {t : Trace} (h : t.hasErrors = false) : NoRecovery t.steps := by
  simpa [Trace.hasErrors, NoRecovery] using h

theorem NoRecovery.noExtract {steps : List Step} (h : NoRecovery steps) : NoExtract steps := by
  intro s hs a x haction
  simpa [haction, Action.isRecovery] using h s hs

variable {p : Parser} {past : List Step} {n : Nat} {m : Machine} {tokens : List Symbol}

/-! ## Derivations -/

/-- The steps and the stack they lead to are on a leftmost derivation. -/
structure Follows (p : Parser) (past : List Step) (m : Machine) : Prop where
  terminal : ∀ x ∈ Step.matchedIn past, p.grammar.isTerminal x = true
  derives : ∃ rest, m.config.stack = rest ++ [Grammar.endOfInput] ∧
    p.grammar.DerivesLeftmost [p.grammar.start] (Step.matchedIn past ++ rest)

theorem Follows.step (hfits : p.table.Fits p.grammar) (h : p.Follows past m)
    (goes : (p.next n m).outcome? = none) (hkeep : ∀ a x, p.next n m ≠ .extract a x) :
    p.Follows (past ++ [⟨m.config, p.next n m⟩]) (p.apply m (p.next n m)) := by
  obtain ⟨hterm, rest, hstack, hderives⟩ := h
  obtain ⟨-, htakes⟩ := takes_of_goes goes
  generalize p.next n m = action at htakes hkeep
  cases htakes with
  | matchTop above terminal agree =>
    obtain ⟨rest, rfl, htail⟩ := Machine.exists_rest hstack above
    refine ⟨?_, ?_⟩
    · simpa [or_imp, forall_and, Step.matched?] using ⟨hterm, terminal⟩
    · exact ⟨rest, htail, by simpa [Step.matched?] using hderives⟩
  | mismatch above terminal differ =>
    refine ⟨?_, ?_⟩
    · simpa [Step.matched?] using hterm
    · exact ⟨rest, by simpa [apply] using hstack, by simpa [Step.matched?] using hderives⟩
  | @expand above notTerminal nonterminal r rule cell known =>
    obtain ⟨rest, rfl, htail⟩ := Machine.exists_rest hstack above
    have hlhs : rule.lhs = m.top := hfits _ _ r rule cell known
    have hstep := Grammar.RewritesLeftmost.rule (Grammar.mem_rules_of_rule? known) hterm rest
    rw [hlhs] at hstep
    refine ⟨?_, ?_⟩
    · simpa [Step.matched?] using hterm
    · refine ⟨rule.rhs ++ rest, ?_, ?_⟩
      · simp [apply, known, Machine.push, Machine.pop, htail]
      · simpa [Step.matched?] using Grammar.DerivesLeftmost.tail hderives hstep
  | extract => exact absurd rfl (hkeep _ _)
  | explore =>
    refine ⟨?_, ?_⟩
    · simpa [Step.matched?] using hterm
    · exact ⟨rest, by simpa [apply] using hstack, by simpa [Step.matched?] using hderives⟩

theorem Follows.invariant (hfits : p.table.Fits p.grammar) (tokens : List Symbol) :
    p.Invariant tokens fun past m => NoExtract past → p.Follows past m where
  start _ := ⟨by simp, [p.grammar.start], rfl, .refl _⟩
  init _ := ⟨by simp [Step.matchedIn, Step.matched?], [p.grammar.start], rfl, .refl _⟩
  step past n m ih goes hnone := by
    refine (ih fun s hs => hnone s (by simp [hs])).step hfits goes fun a x => ?_
    exact hnone ⟨m.config, p.next n m⟩ (by simp) a x

/-! ## Input -/

/-- What was matched and what is left make up the input, and no end of input was matched. -/
structure Reads (tokens : List Symbol) (past : List Step) (m : Machine) : Prop where
  input : Step.matchedIn past ++ m.config.input = tokens ++ [Grammar.endOfInput]
  inside : ∀ x ∈ Step.matchedIn past, x ≠ Grammar.endOfInput

theorem Reads.step (h : Reads tokens past m) (goes : (p.next n m).outcome? = none)
    (hkeep : (p.next n m).isRecovery = false) :
    Reads tokens (past ++ [⟨m.config, p.next n m⟩]) (p.apply m (p.next n m)) := by
  obtain ⟨hinput, hinside⟩ := h
  obtain ⟨-, htakes⟩ := takes_of_goes goes
  generalize p.next n m = action at htakes hkeep
  cases htakes with
  | matchTop above terminal agree =>
    have hlook : m.config.input = m.top :: m.config.input.tail := by
      rw [agree]
      exact Machine.input_eq (agree ▸ above)
    refine ⟨?_, ?_⟩
    · rw [hlook] at hinput
      simpa [Step.matched?, apply, Machine.pop, Machine.consume] using hinput
    · simpa [or_imp, forall_and, Step.matched?] using ⟨hinside, above⟩
  | expand above notTerminal nonterminal cell known =>
    refine ⟨?_, ?_⟩
    · simpa [Step.matched?, apply, known, Machine.push, Machine.pop] using hinput
    · simpa [Step.matched?] using hinside
  | mismatch => simp [Action.isRecovery] at hkeep
  | extract => simp [Action.isRecovery] at hkeep
  | explore => simp [Action.isRecovery] at hkeep

theorem Reads.invariant (p : Parser) (tokens : List Symbol) :
    p.Invariant tokens fun past m => NoRecovery past → Reads tokens past m where
  start _ := ⟨by simp [Machine.init], by simp⟩
  init _ := ⟨by simp [Machine.init, Step.matchedIn, Step.matched?],
    by simp [Step.matchedIn, Step.matched?]⟩
  step past n m ih goes hnone := by
    refine (ih fun s hs => hnone s (by simp [hs])).step goes ?_
    exact hnone ⟨m.config, p.next n m⟩ (by simp)

/-- At the end of the input everything before it was matched. -/
theorem Reads.matched_eq (h : Reads tokens past m) (hlook : m.lookahead = Grammar.endOfInput) :
    Step.matchedIn past =
      (tokens ++ [Grammar.endOfInput]).takeWhile (· != Grammar.endOfInput) := by
  obtain ⟨hinput, hinside⟩ := h
  have hall : ∀ x ∈ Step.matchedIn past, (x != Grammar.endOfInput) = true := by
    simpa using hinside
  rw [← hinput, List.takeWhile_append_of_pos hall]
  cases hleft : m.config.input with
  | nil =>
    -- Then the `$` after the tokens would be among the matched terminals.
    have hmem : Grammar.endOfInput ∈ Step.matchedIn past := by
      rw [hleft, List.append_nil] at hinput
      simp [hinput]
    exact absurd rfl (hinside _ hmem)
  | cons x xs =>
    have hx : x = Grammar.endOfInput := by simpa [Machine.lookahead, hleft] using hlook
    simp [hx]

/-! ## Whole runs -/

/-- Before the first extraction every recorded configuration is on a leftmost derivation. So a run
    that accepts without extraction, with only `$` left, has matched a string that the start symbol
    derives; and one without any recovery has matched the input up to its first `$`. -/
theorem parseWithin_sound (g : Grammar) (first : FirstSets) (follow : FollowSets)
    (options : RunOptions) (fuel : Nat) (tokens : List Symbol) :
    let t := parseWithin ⟨g, .withSets g first follow, options⟩ fuel tokens
    (∀ pre step post, t.steps = pre ++ step :: post → NoExtract pre →
      ∃ rest, step.config.stack = rest ++ [Grammar.endOfInput] ∧
        g.DerivesLeftmost [g.start] (Step.matchedIn pre ++ rest)) ∧
    (t.status = .accepted → NoExtract t.steps → t.lastStack? = some [Grammar.endOfInput] →
      g.DerivesLeftmost [g.start] t.matched) ∧
    (t.status = .accepted → t.hasErrors = false →
      t.matched = (tokens ++ [Grammar.endOfInput]).takeWhile (· != Grammar.endOfInput)) := by
  intro t
  have hfollows := Follows.invariant (p := ⟨g, .withSets g first follow, options⟩)
    (ParseTable.fits_withSets g first follow) tokens
  refine ⟨?_, ?_, ?_⟩
  · intro pre step post hsteps hnone
    obtain ⟨m, hm, hconfig⟩ := hfollows.of_steps hsteps
    obtain ⟨-, rest, hstack, hderives⟩ := hm hnone
    exact ⟨rest, by rw [hconfig, hstack], hderives⟩
  · intro haccept hnone hlast
    obtain ⟨pre, m, hm, hsteps, -, -⟩ := hfollows.of_accepted haccept
    rw [Trace.lastStack?, hsteps, List.getLast?_concat] at hlast
    rw [hsteps] at hnone
    obtain ⟨-, rest, hstack, hderives⟩ := hm fun s hs => hnone s (by simp [hs])
    obtain rfl : rest = [] := by simpa [hstack] using hlast
    rw [Trace.matched_eq, hsteps]
    simpa [Step.matched?] using hderives
  · intro haccept hclean
    obtain ⟨pre, m, hm, hsteps, -, hlook⟩ := (Reads.invariant _ tokens).of_accepted haccept
    have hnone := noRecovery_of_hasErrors hclean
    rw [hsteps] at hnone
    rw [Trace.matched_eq, hsteps]
    simpa [Step.matched?] using (hm fun s hs => hnone s (by simp [hs])).matched_eq hlook

/-- When a run on terminals accepts without an error, the start symbol derives what is left above
    the lowest `$` behind the tokens. If anything is left, then it begins with another `$`. -/
theorem derives_of_clean (hfits : p.table.Fits p.grammar)
    (htokens : ∀ x ∈ tokens, x ≠ Grammar.endOfInput) (haccept : (p.parse tokens).status = .accepted)
    (hclean : (p.parse tokens).hasErrors = false) :
    ∃ rest, (p.parse tokens).lastStack? = some (rest ++ [Grammar.endOfInput]) ∧
      p.grammar.DerivesLeftmost [p.grammar.start] (tokens ++ rest) ∧
      (rest = [] ∨ rest.head? = some Grammar.endOfInput) := by
  have hinv := (Follows.invariant hfits tokens).and (Reads.invariant p tokens)
  obtain ⟨pre, m, ⟨hfollows, hreads⟩, hsteps, htop, hlook⟩ := hinv.of_accepted haccept
  have hnone : NoRecovery pre := by
    intro s hs
    refine noRecovery_of_hasErrors hclean s ?_
    rw [parse, hsteps]
    exact List.mem_append_left _ hs
  obtain ⟨-, rest, hstack, hderives⟩ := hfollows hnone.noExtract
  have hmatched : Step.matchedIn pre = tokens := by
    rw [(hreads hnone).matched_eq hlook, List.takeWhile_append_of_pos (by simpa using htokens)]
    simp
  refine ⟨rest, ?_, hmatched ▸ hderives, ?_⟩
  · rw [Trace.lastStack?, parse, hsteps, List.getLast?_concat, Option.map_some, hstack]
  · cases rest with
    | nil => exact .inl rfl
    | cons x rest => exact .inr (by simpa [Machine.top, hstack] using htop)

/-- The run of `Grammar.nested` on `a b`. -/
def nestedTrace : Trace :=
  parseWithin
    ⟨.nested, .withSets .nested (.ofGrammar .nested) (.ofGrammar .nested (.ofGrammar .nested)),
      .unlimited⟩ 10 [⟨2⟩, ⟨3⟩]

theorem nestedTrace_sound :
    (nestedTrace.status = .accepted ∧ nestedTrace.hasErrors = false ∧
      NoExtract nestedTrace.steps ∧
      nestedTrace.lastStack? = some [Grammar.endOfInput]) ∧
    (∃ rest, [⟨1⟩, ⟨3⟩, Grammar.endOfInput] = rest ++ [Grammar.endOfInput] ∧
      Grammar.nested.DerivesLeftmost [Grammar.nested.start] ([⟨2⟩] ++ rest)) ∧
    Grammar.nested.DerivesLeftmost [Grammar.nested.start] nestedTrace.matched ∧
    nestedTrace.matched = [⟨2⟩, ⟨3⟩] := by
  have haccept : nestedTrace.status = .accepted := by decide +kernel
  have hclean : nestedTrace.hasErrors = false := by decide +kernel
  have hnone : NoExtract nestedTrace.steps := (noRecovery_of_hasErrors hclean).noExtract
  have hlast : nestedTrace.lastStack? = some [Grammar.endOfInput] := by decide +kernel
  obtain ⟨hstep, hderives, hmatched⟩ := parseWithin_sound .nested (.ofGrammar .nested)
    (.ofGrammar .nested (.ofGrammar .nested)) .unlimited 10 [⟨2⟩, ⟨3⟩]
  have hsteps : nestedTrace.steps = nestedTrace.steps.take 3 ++
      ⟨⟨[⟨1⟩, ⟨3⟩, Grammar.endOfInput], [⟨3⟩, Grammar.endOfInput]⟩, .expand ⟨1⟩⟩ ::
        nestedTrace.steps.drop 4 := by decide +kernel
  have htake : NoExtract (nestedTrace.steps.take 3) :=
    fun s hs => hnone s (List.mem_of_mem_take hs)
  have hpre : Step.matchedIn (nestedTrace.steps.take 3) = [⟨2⟩] := by decide +kernel
  refine ⟨⟨haccept, hclean, hnone, hlast⟩, ?_, hderives haccept hnone hlast, ?_⟩
  · rw [← hpre]
    exact hstep _ _ _ hsteps htake
  · rw [show nestedTrace.matched = _ from hmatched haccept hclean]
    decide

end Parser

end Predictive
