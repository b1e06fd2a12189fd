-- SUMMARY: Single steps of the parser, runs as paths of steps, and what it means that a run ends.
import Predictive.Parse.Parser

/-!
# Steps and runs

A step that does not end the run takes one of five actions, and each of them tells what was on the
stack, in the input and in the table. A run is a path: every machine on it follows from the one
before by the action taken there, and only the last action may end the run. Whatever one step keeps,
with the steps before it in view, is therefore true of every machine on the way.

A run of the parser ends if some amount of fuel is enough for it. More fuel does not change it then,
so the trace with which a run ends is unique, and no bound on the fuel appears in statements about
runs without a step limit.
-/

namespace Predictive

namespace Machine

variable {m : Machine}

theorem input_eq (h : m.lookahead ≠ Grammar.endOfInput) :
    m.config.input = m.lookahead :: m.config.input.tail := by
  unfold lookahead at h ⊢
  cases hinput : m.config.input with
  | nil => simp [hinput] at h
  | cons x xs => rfl

theorem length_tail_input_lt (h : m.lookahead ≠ Grammar.endOfInput) :
    m.config.input.tail.length < m.config.input.length := by
  have hlen := congrArg List.length (input_eq h)
  rw [List.length_cons] at hlen
  omega

@[simp] theorem stack_discard (m : Machine) : m.discard.config.stack = m.config.stack := by
  unfold discard
  split <;> rfl

theorem mem_input_of_discard {x : Symbol} (h : x ∈ m.discard.config.input) :
    x ∈ m.config.input := by
  unfold discard at h
  split at h
  · exact h
  · exact List.mem_of_mem_tail h

theorem top_of_forall {P : Symbol → Prop} (hend : P Grammar.endOfInput)
    (hstack : ∀ x ∈ m.config.stack, P x) : P m.top := by
  unfold top
  cases h : m.config.stack with
  | nil => exact hend
  | cons x stack => exact hstack x (by simp [h])

theorem lookahead_of_forall {P : Symbol → Prop} (hend : P Grammar.endOfInput)
    (hinput : ∀ x ∈ m.config.input, P x) : P m.lookahead := by
  unfold lookahead
  cases h : m.config.input with
  | nil => exact hend
  | cons x input => exact hinput x (by simp [h])

end Machine

/-- The stack that was recorded last. -/
def Trace.lastStack? (t : Trace) : Option (List Symbol) :=
  t.steps.getLast?.map fun s => s.config.stack

theorem Trace.lastStack?_concat (steps : List Step) (s : Step) (status : RunStatus) :
    lastStack? ⟨steps ++ [s], status⟩ = some s.config.stack := by
  simp only [lastStack?, List.getLast?_concat, Option.map_some]

namespace Parser

variable {p : Parser} {n : Nat} {m m' : Machine} {steps : List Step} {status : RunStatus}
  {action : Action}

/-! ## Steps -/

/-- The actions with which a machine that is not stuck goes on. -/
inductive Takes (p : Parser) (m : Machine) : Action → Prop where
  | matchTop (above : m.top ≠ Grammar.endOfInput) (terminal : p.grammar.isTerminal m.top = true)
    (agree : m.top = m.lookahead) : Takes p m (.matchTop m.top)
  | mismatch (above : m.top ≠ Grammar.endOfInput) (terminal : p.grammar.isTerminal m.top = true)
    (differ : m.top ≠ m.lookahead) : Takes p m (.mismatch m.top m.lookahead)
  | expand (above : m.top ≠ Grammar.endOfInput) (notTerminal : p.grammar.isTerminal m.top = false)
    (nonterminal : p.grammar.isNonterminal m.top = true) {r : RuleId} {rule : Rule}
    (cell : p.table.get? m.top m.lookahead = some (.rule r))
    (known : p.grammar.rule? r = some rule) : Takes p m (.expand r)
  | extract (above : m.top ≠ Grammar.endOfInput) (notTerminal : p.grammar.isTerminal m.top = false)
    (nonterminal : p.grammar.isNonterminal m.top = true)
    (cell : p.table.get? m.top m.lookahead = some .extract) :
    Takes p m (.extract m.top m.lookahead)
  | explore (above : m.top ≠ Grammar.endOfInput) (notTerminal : p.grammar.isTerminal m.top = false)
    (nonterminal : p.grammar.isNonterminal m.top = true)
    (cell : p.table.get? m.top m.lookahead = some .explore) :
    Takes p m (.explore m.top m.lookahead)

theorem next_eq_decide (hlimit : p.options.exhausted n = false) (hstuck : m.stuck = false) :
    p.next n m = p.decide m.top m.lookahead := by
  simp [next, hlimit, hstuck]

theorem next_of_takes (hlimit : p.options.exhausted n = false) (hstuck : m.stuck = false)
    (h : p.Takes m action) : p.next n m = action := by
  rw [next_eq_decide hlimit hstuck]
  cases h with
  | matchTop above terminal agree => simp [decide, above, terminal, agree.symm]
  | mismatch above terminal differ => simp [decide, above, terminal, differ]
  | expand above notTerminal nonterminal cell known =>
    simp [decide, consult, above, notTerminal, nonterminal, cell, known]
  | extract above notTerminal nonterminal cell =>
    simp [decide, consult, above, notTerminal, nonterminal, cell]
  | explore above notTerminal nonterminal cell =>
    simp [decide, consult, above, notTerminal, nonterminal, cell]

theorem takes_of_decide (h : (p.decide m.top m.lookahead).outcome? = none) :
    p.Takes m (p.decide m.top m.lookahead) := by
  have habove : m.top ≠ Grammar.endOfInput := by
    intro htop
    by_cases hlook : m.lookahead = Grammar.endOfInput <;>
      simp [decide, htop, hlook, Action.outcome?] at h
  cases hterm : p.grammar.isTerminal m.top with
  | true =>
    by_cases hagree : m.top = m.lookahead
    · have htake := Takes.matchTop (p := p) habove hterm hagree
      simpa [decide, habove, hterm, hagree.symm] using htake
    · have htake := Takes.mismatch (p := p) habove hterm hagree
      simpa [decide, habove, hterm, hagree] using htake
  | false =>
    cases hnonterm : p.grammar.isNonterminal m.top with
    | false => simp [decide, habove, hterm, hnonterm, Action.outcome?] at h
    | true =>
      have hconsult : p.decide m.top m.lookahead = p.consult m.top m.lookahead := by
        simp [decide, habove, hterm, hnonterm]
      rw [hconsult] at h ⊢
      unfold consult at h ⊢
      split at h
      · next r hcell =>
        cases hrule : p.grammar.rule? r with
        | none => simp [hrule, Action.outcome?] at h
        | some rule => simpa using Takes.expand habove hterm hnonterm hcell hrule
      · next hcell => exact .extract habove hterm hnonterm hcell
      · next hcell => exact .explore habove hterm hnonterm hcell
      · simp [Action.outcome?] at h

/-- A step that does not end the run. -/
theorem takes_of_goes (goes : (p.next n m).outcome? = none) :
    m.stuck = false ∧ p.Takes m (p.next n m) := by
  have hlimit : p.options.exhausted n = false := by
    cases h : p.options.exhausted n with
    | true => simp [next, h, Action.outcome?] at goes
    | false => rfl
  have hstuck : m.stuck = false := by
    cases h : m.stuck with
    | true => simp [next, hlimit, h, Action.outcome?] at goes
    | false => rfl
  rw [next_eq_decide hlimit hstuck] at goes ⊢
  exact ⟨hstuck, takes_of_decide goes⟩

theorem consult_ne_accept (a x : Symbol) : p.consult a x ≠ .accept := by
  unfold consult
  split
  · split <;> simp
  · simp
  · simp
  · simp

theorem eq_of_decide_accept {x y : Symbol} (h : p.decide x y = .accept) :
    x = Grammar.endOfInput ∧ y = Grammar.endOfInput := by
  by_cases hx : x = Grammar.endOfInput
  · refine ⟨hx, ?_⟩
    by_cases hy : y = Grammar.endOfInput
    · exact hy
    · simp [decide, hx, hy] at h
  · cases hterm : p.grammar.isTerminal x with
    | true =>
      simp only [decide, hx, hterm, if_true, if_false] at h
      split at h <;> cases h
    | false =>
      cases hnonterm : p.grammar.isNonterminal x with
      | true =>
        have hconsult : p.consult x y = .accept := by simpa [decide, hx, hterm, hnonterm] using h
        exact absurd hconsult (consult_ne_accept x y)
      | false => simp [decide, hx, hterm, hnonterm] at h

theorem decide_ne_stepLimit (p : Parser) (x y : Symbol) : p.decide x y ≠ .reject .stepLimit := by
  unfold decide consult
  repeat' split
  all_goals simp

/-- The expansion of a nonterminal whose cell holds a rule. -/
theorem takes_expand {x : Symbol} {stack input : List Symbol} {r : RuleId} {rule : Rule}
    (above : x ≠ Grammar.endOfInput) (notTerminal : p.grammar.isTerminal x = false)
    (nonterminal : p.grammar.isNonterminal x = true)
    (cell : p.table.get? x (input.headD Grammar.endOfInput) = some (.rule r))
    (known : p.grammar.rule? r = some rule) :
    p.Takes ⟨⟨x :: stack, input⟩, false⟩ (.expand r) :=
  .expand (m := ⟨⟨x :: stack, input⟩, false⟩) above notTerminal nonterminal cell known

theorem apply_of_rule? {r : RuleId} {rule : Rule} (known : p.grammar.rule? r = some rule) :
    p.apply m (.expand r) = m.pop.push rule.rhs := by
  simp only [apply, known]

theorem apply_expand {stack input : List Symbol} {x : Symbol} {r : RuleId} {rule : Rule}
    (known : p.grammar.rule? r = some rule) :
    p.apply ⟨⟨x :: stack, input⟩, false⟩ (.expand r) = ⟨⟨rule.rhs ++ stack, input⟩, false⟩ :=
  apply_of_rule? known

/-- No action puts anything on the stack but the right-hand side of a rule. -/
theorem mem_stack_of_apply {x : Symbol} (h : x ∈ (p.apply m action).config.stack) :
    x ∈ m.config.stack ∨ ∃ r rule, p.grammar.rule? r = some rule ∧ x ∈ rule.rhs := by
  cases action with
  | init => exact .inl h
  | accept => exact .inl h
  | reject why => exact .inl h
  | matchTop y => exact .inl (List.mem_of_mem_tail h)
  | mismatch y z => exact .inl (by simpa [apply] using h)
  | extract a y => exact .inl (List.mem_of_mem_tail h)
  | explore a y => exact .inl (by simpa [apply] using h)
  | expand r =>
    cases hrule : p.grammar.rule? r with
    | none =>
      simp only [apply, hrule] at h
      exact .inl (List.mem_of_mem_tail h)
    | some rule =>
      rw [apply_of_rule? hrule] at h
      rcases List.mem_append.1 h with h | h
      · exact .inr ⟨r, rule, hrule, h⟩
      · exact .inl (List.mem_of_mem_tail h)

/-- No action adds anything to the input. -/
theorem mem_input_of_apply {x : Symbol} (h : x ∈ (p.apply m action).config.input) :
    x ∈ m.config.input := by
  cases action with
  | init => exact h
  | accept => exact h
  | reject why => exact h
  | matchTop y => exact List.mem_of_mem_tail h
  | mismatch y z => exact Machine.mem_input_of_discard h
  | extract a y => exact h
  | explore a y => exact Machine.mem_input_of_discard h
  | expand r =>
    simp only [apply] at h
    split at h <;> exact h

/-- The parser accepts in front of the end of input only, with `$` on top of the stack. -/
theorem next_eq_accept (h : (p.next n m).outcome? = some .accepted) :
    p.next n m = .accept ∧ m.top = Grammar.endOfInput ∧ m.lookahead = Grammar.endOfInput := by
  have haccept : p.next n m = .accept := by
    cases haction : p.next n m <;> simp [haction, Action.outcome?] at h ⊢
  refine ⟨haccept, eq_of_decide_accept (p := p) ?_⟩
  unfold next at haccept
  split at haccept
  · cases haccept
  · split at haccept
    · cases haccept
    · exact haccept

/-! ## Paths -/

/-- From `m`, which took `n` steps, the steps lead to `m'`. None of them ends the run. -/
inductive Path (p : Parser) : Nat → Machine → List Step → Machine → Prop where
  | nil (n : Nat) (m : Machine) : Path p n m [] m
  | cons {n : Nat} {m m' : Machine} {steps : List Step} (goes : (p.next n m).outcome? = none)
    (rest : Path p (n + 1) (p.apply m (p.next n m)) steps m') :
    Path p n m (⟨m.config, p.next n m⟩ :: steps) m'

theorem Path.append {m'' : Machine} {steps' : List Step} (h : p.Path n m steps m')
    (h' : p.Path (n + steps.length) m' steps' m'') : p.Path n m (steps ++ steps') m'' := by
  induction h with
  | nil => exact h'
  | cons goes _ ih =>
    refine .cons goes (ih ?_)
    rwa [List.length_cons, Nat.add_comm _ 1, ← Nat.add_assoc] at h'

/-- What every step keeps, all of the path keeps. -/
theorem Path.keeps {Inv : List Step → Machine → Prop} {past : List Step}
    (hstep : ∀ past n m, Inv past m → (p.next n m).outcome? = none →
      Inv (past ++ [⟨m.config, p.next n m⟩]) (p.apply m (p.next n m)))
    (h : p.Path n m steps m') (hm : Inv past m) : Inv (past ++ steps) m' := by
  induction h generalizing past with
  | nil => simpa using hm
  | cons goes _ ih => simpa using ih (hstep past _ _ hm goes)

/-! ## Runs as paths -/

theorem run_of_goes (fuel : Nat) (goes : (p.next n m).outcome? = none) :
    p.run (fuel + 1) n m =
      (p.run fuel (n + 1) (p.apply m (p.next n m))).prepend ⟨m.config, p.next n m⟩ := by
  simp only [run, goes]

theorem run_of_stops (fuel : Nat) (stops : (p.next n m).outcome? = some status) :
    p.run (fuel + 1) n m = ⟨[⟨m.config, p.next n m⟩], status⟩ := by
  simp only [run, stops]

/-- Every recorded step was taken by a machine to which the steps before it lead. -/
theorem exists_path_of_steps_run {fuel : Nat} {pre post : List Step} {step : Step}
    (h : (p.run fuel n m).steps = pre ++ step :: post) :
    ∃ m', p.Path n m pre m' ∧ step = ⟨m'.config, p.next (n + pre.length) m'⟩ := by
  induction pre generalizing fuel n m with
  | nil =>
    cases fuel with
    | zero => simp [run] at h
    | succ fuel =>
      refine ⟨m, .nil n m, ?_⟩
      cases hout : (p.next n m).outcome? with
      | none =>
        simp only [run_of_goes fuel hout, Trace.prepend, List.nil_append, List.cons.injEq] at h
        exact h.1.symm
      | some status =>
        simp only [run_of_stops fuel hout, List.nil_append, List.cons.injEq] at h
        exact h.1.symm
  | cons first pre ih =>
    cases fuel with
    | zero => simp [run] at h
    | succ fuel =>
      cases hout : (p.next n m).outcome? with
      | none =>
        simp only [run_of_goes fuel hout, Trace.prepend, List.cons_append, List.cons.injEq] at h
        obtain ⟨m', hpath, hlast⟩ := ih h.2
        refine ⟨m', h.1 ▸ .cons hout hpath, ?_⟩
        rw [hlast, List.length_cons, Nat.add_right_comm, Nat.add_assoc]
      | some status =>
        simp only [run_of_stops fuel hout, List.cons_append, List.cons.injEq] at h
        simp at h

/-- A run that is over is a path with one more action, which names the status. -/
theorem exists_path_of_status_run {fuel : Nat} (h : (p.run fuel n m).status ≠ .running) :
    ∃ pre m', p.Path n m pre m' ∧
      (p.next (n + pre.length) m').outcome? = some (p.run fuel n m).status ∧
      (p.run fuel n m).steps = pre ++ [⟨m'.config, p.next (n + pre.length) m'⟩] := by
  induction fuel generalizing n m with
  | zero => exact absurd rfl h
  | succ fuel ih =>
    cases hout : (p.next n m).outcome? with
    | none =>
      rw [run_of_goes fuel hout] at h ⊢
      obtain ⟨pre, m', hpath, hstops, hsteps⟩ := ih h
      rw [Nat.add_right_comm, Nat.add_assoc] at hstops hsteps
      refine ⟨⟨m.config, p.next n m⟩ :: pre, m', .cons hout hpath, hstops, ?_⟩
      rw [Trace.prepend, hsteps]
      rfl
    | some status =>
      rw [run_of_stops fuel hout]
      exact ⟨[], m, .nil n m, hout, rfl⟩

/-- A path with an action that ends it is the whole run. -/
theorem run_of_path (h : p.Path n m steps m')
    (stops : (p.next (n + steps.length) m').outcome? = some status) (fuel : Nat) :
    p.run (steps.length + 1 + fuel) n m =
      ⟨steps ++ [⟨m'.config, p.next (n + steps.length) m'⟩], status⟩ := by
  induction h with
  | nil n m =>
    rw [List.length_nil, Nat.zero_add, Nat.add_comm 1 fuel]
    exact run_of_stops fuel stops
  | @cons n m m' steps goes _ ih =>
    rw [List.length_cons, Nat.add_comm steps.length 1, ← Nat.add_assoc] at stops ⊢
    rw [Nat.add_comm 1 steps.length, Nat.add_right_comm, run_of_goes _ goes, ih stops]
    rfl

/-- A run that is over stays as it is when there is more fuel. -/
theorem run_add {fuel : Nat} (h : (p.run fuel n m).status ≠ .running) (more : Nat) :
    p.run (fuel + more) n m = p.run fuel n m := by
  induction fuel generalizing n m with
  | zero => exact absurd rfl h
  | succ fuel ih =>
    rw [Nat.add_right_comm]
    cases hout : (p.next n m).outcome? with
    | none =>
      rw [run_of_goes fuel hout] at h
      rw [run_of_goes _ hout, run_of_goes _ hout, ih h]
    | some status => rw [run_of_stops _ hout, run_of_stops _ hout]

/-! ## Invariants of whole runs -/

section Invariants

variable {Inv : List Step → Machine → Prop} {fuel : Nat} {tokens : List Symbol}

/-- A property of machines and the steps they took that no step breaks. -/
structure Invariant (p : Parser) (tokens : List Symbol) (Inv : List Step → Machine → Prop) :
    Prop where
  start : Inv [] (.init p.grammar.start tokens)
  init : Inv [⟨(Machine.init p.grammar.start tokens).config, .init⟩]
    (.init p.grammar.start tokens)
  step : ∀ past n m, Inv past m → (p.next n m).outcome? = none →
    Inv (past ++ [⟨m.config, p.next n m⟩]) (p.apply m (p.next n m))

theorem Invariant.and {Inv' : List Step → Machine → Prop} (h : p.Invariant tokens Inv)
    (h' : p.Invariant tokens Inv') : p.Invariant tokens fun past m => Inv past m ∧ Inv' past m where
  start := ⟨h.start, h'.start⟩
  init := ⟨h.init, h'.init⟩
  step past n m hm goes := ⟨h.step past n m hm.1 goes, h'.step past n m hm.2 goes⟩

/-- Every recorded configuration belongs to a machine that the invariant is true of. -/
theorem Invariant.of_steps (h : p.Invariant tokens Inv) {pre post : List Step} {step : Step}
    (hsteps : (p.parseWithin fuel tokens).steps = pre ++ step :: post) :
    ∃ m, Inv pre m ∧ step.config = m.config := by
  cases pre with
  | nil =>
    simp only [parseWithin, Trace.prepend, List.nil_append, List.cons.injEq] at hsteps
    exact ⟨_, h.start, by rw [← hsteps.1]⟩
  | cons first pre =>
    simp only [parseWithin, Trace.prepend, List.cons_append, List.cons.injEq] at hsteps
    obtain ⟨rfl, hrun⟩ := hsteps
    obtain ⟨m, hpath, rfl⟩ := exists_path_of_steps_run hrun
    exact ⟨m, hpath.keeps h.step h.init, rfl⟩

/-- Every step was taken by a machine that the invariant is true of. -/
theorem Invariant.of_mem_steps_parseWithin (h : p.Invariant tokens Inv) {s : Step}
    (hs : s ∈ (p.parseWithin fuel tokens).steps) :
    ∃ past m, Inv past m ∧ s.config = m.config ∧
      (s.action = .init ∨ ∃ n, s.action = p.next n m) := by
  rcases List.mem_cons.1 hs with rfl | hs
  · exact ⟨[], _, h.start, rfl, .inl rfl⟩
  · obtain ⟨pre, post, hsteps⟩ := List.append_of_mem hs
    obtain ⟨m, hpath, rfl⟩ := exists_path_of_steps_run hsteps
    exact ⟨_, m, hpath.keeps h.step h.init, rfl, .inr ⟨_, rfl⟩⟩

/-- The last step of a run that accepts. -/
theorem Invariant.of_accepted (h : p.Invariant tokens Inv)
    (haccept : (p.parseWithin fuel tokens).status = .accepted) :
    ∃ pre m, Inv pre m ∧ (p.parseWithin fuel tokens).steps = pre ++ [⟨m.config, .accept⟩] ∧
      m.top = Grammar.endOfInput ∧ m.lookahead = Grammar.endOfInput := by
  have hrun : (p.run fuel 0 (.init p.grammar.start tokens)).status = .accepted := haccept
  have hended : (p.run fuel 0 (.init p.grammar.start tokens)).status ≠ .running := by simp [hrun]
  obtain ⟨pre, m, hpath, hstops, hsteps⟩ := exists_path_of_status_run hended
  rw [hrun] at hstops
  obtain ⟨haction, htop, hlook⟩ := next_eq_accept hstops
  rw [haction] at hsteps
  refine ⟨_, m, hpath.keeps h.step h.init, ?_, htop, hlook⟩
  simp [parseWithin, Trace.prepend, hsteps]

end Invariants

/-! ## Runs that end -/

/-- The run on the tokens comes to an end, with this trace. -/
def EndsWith (p : Parser) (tokens : List Symbol) (t : Trace) : Prop :=
  t.status ≠ .running ∧ ∃ fuel, p.parseWithin fuel tokens = t

/-- A run ends if and only if a path leads to an action that ends it. -/
theorem endsWith_iff {tokens : List Symbol} {t : Trace} :
    p.EndsWith tokens t ↔
      ∃ pre m' status, p.Path 0 (.init p.grammar.start tokens) pre m' ∧
        (p.next pre.length m').outcome? = some status ∧
        t = ⟨⟨(Machine.init p.grammar.start tokens).config, .init⟩ :: pre ++
          [⟨m'.config, p.next pre.length m'⟩], status⟩ := by
  refine ⟨?_, ?_⟩
  · rintro ⟨hstatus, fuel, rfl⟩
    have hrun : (p.run fuel 0 (.init p.grammar.start tokens)).status ≠ .running := hstatus
    obtain ⟨pre, m', hpath, hstops, hsteps⟩ := exists_path_of_status_run hrun
    rw [Nat.zero_add] at hstops hsteps
    refine ⟨pre, m', _, hpath, hstops, ?_⟩
    simp [parseWithin, Trace.prepend, hsteps]
  · rintro ⟨pre, m', status, hpath, hstops, rfl⟩
    have hrun := run_of_path hpath (by rwa [Nat.zero_add]) 0
    refine ⟨?_, pre.length + 1 + 0, ?_⟩
    · rintro rfl
      cases haction : p.next pre.length m' <;> simp [haction, Action.outcome?] at hstops
    · simp [parseWithin, hrun, Trace.prepend]

/-- A run has no two ends. -/
theorem EndsWith.eq {tokens : List Symbol} {t t' : Trace} (h : p.EndsWith tokens t)
    (h' : p.EndsWith tokens t') : t = t' := by
  obtain ⟨hstatus, fuel, rfl⟩ := h
  obtain ⟨hstatus', fuel', rfl⟩ := h'
  have hrun : p.run fuel 0 (.init p.grammar.start tokens) =
      p.run fuel' 0 (.init p.grammar.start tokens) := by
    rw [← run_add hstatus fuel', ← run_add hstatus' fuel, Nat.add_comm]
  simp only [parseWithin, hrun]

/-- Fuel for as many steps as the trace has is enough. -/
theorem EndsWith.parseWithin_eq {tokens : List Symbol} {t : Trace} (h : p.EndsWith tokens t)
    {fuel : Nat} (hfuel : t.steps.length ≤ fuel + 1) : p.parseWithin fuel tokens = t := by
  obtain ⟨pre, m', status, hpath, hstops, rfl⟩ := endsWith_iff.1 h
  have hlen : pre.length + 1 ≤ fuel := by simpa using hfuel
  obtain ⟨more, rfl⟩ := Nat.exists_eq_add_of_le hlen
  have hrun := run_of_path hpath (by rwa [Nat.zero_add]) more
  simp [parseWithin, hrun, Trace.prepend]

theorem run_ne_running {limit fuel : Nat} (hlimit : p.options.stepLimit? = some limit)
    (hn : n ≤ limit) (hfuel : limit < n + fuel) : (p.run fuel n m).status ≠ .running := by
  induction fuel generalizing n m with
  | zero => omega
  | succ fuel ih =>
    cases hout : (p.next n m).outcome? with
    | none =>
      have hlt : n < limit := by
        refine Nat.lt_of_not_le fun hle => ?_
        have hnext : p.next n m = .reject .stepLimit := by
          simp [next, RunOptions.exhausted, hlimit, hle]
        simp [hnext, Action.outcome?] at hout
      rw [run_of_goes fuel hout]
      exact ih hlt (by omega)
    | some status =>
      rw [run_of_stops fuel hout]
      rintro rfl
      cases haction : p.next n m <;> simp [haction, Action.outcome?] at hout

/-- A run with a step limit comes to an end. -/
theorem endsWith_parse {limit : Nat} (hlimit : p.options.stepLimit? = some limit)
    (tokens : List Symbol) : p.EndsWith tokens (p.parse tokens) := by
  refine ⟨?_, _, rfl⟩
  have hfuel : p.options.fuel = limit + 1 := by simp [RunOptions.fuel, hlimit]
  rw [parse, hfuel]
  exact run_ne_running hlimit (Nat.zero_le limit) (by omega)

/-- A run that ends is the recorded one, unless it is longer than any run that is waited for. -/
theorem EndsWith.parse_eq {tokens : List Symbol} {t : Trace} (h : p.EndsWith tokens t) :
    p.parse tokens = t ∨
      p.options.stepLimit? = none ∧ RunOptions.patience + 1 < t.steps.length := by
  cases hlimit : p.options.stepLimit? with
  | some limit => exact .inl ((endsWith_parse hlimit tokens).eq h)
  | none =>
    have hfuel : p.options.fuel = RunOptions.patience := by simp [RunOptions.fuel, hlimit]
    rcases Nat.lt_or_ge (RunOptions.patience + 1) t.steps.length with hlong | hshort
    · exact .inr ⟨rfl, hlong⟩
    · exact .inl (h.parseWithin_eq (hfuel ▸ hshort))

/-- Every step of a run that ends was taken by a machine that the invariant is true of. -/
theorem Invariant.of_mem_steps {Inv : List Step → Machine → Prop} {tokens : List Symbol} {t : Trace}
    (h : p.Invariant tokens Inv) (hends : p.EndsWith tokens t) {s : Step} (hs : s ∈ t.steps) :
    ∃ past m, Inv past m ∧ s.config = m.config ∧
      (s.action = .init ∨ ∃ n, s.action = p.next n m) := by
  obtain ⟨-, fuel, rfl⟩ := hends
  exact h.of_mem_steps_parseWithin hs

end Parser

end Predictive
