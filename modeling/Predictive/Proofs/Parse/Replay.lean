-- SUMMARY: The record of a run that ends replays: each step follows from the one before it by its action alone.
import Mathlib.Data.List.Chain
import Predictive.Proofs.Grammar.Built
import Predictive.Proofs.Parse.Run

/-!
# Replay

A trace can be checked without the parser that made it, with nothing at hand but the rules of the
grammar: every configuration in it is what the action before makes of the configuration before. The
stack never loses the `$` at its bottom and the input never loses the `$` at its end, so no action
is ever taken on an empty stack or an empty input. This asks nothing of the table, which may be that
of another grammar.
-/

namespace Predictive

/-! ## What a record has to satisfy -/

/-- The action discards the input symbol `found` in front of a stack with `top` on it. -/
inductive Action.Discards : Action → Symbol → Symbol → Prop where
  | mismatch (expected found : Symbol) : Discards (.mismatch expected found) expected found
  | explore (nonterminal lookahead : Symbol) :
    Discards (.explore nonterminal lookahead) nonterminal lookahead

/-- The action ends a run with this status. -/
inductive Action.Names : Action → RunStatus → Prop where
  | accept : Names .accept .accepted
  | reject (why : Rejection) : Names (.reject why) (.rejected why)

/-- What an action makes of a configuration, by the rules of a grammar. -/
inductive Config.Becomes (g : Grammar) : Config → Action → Config → Prop where
  | init (c : Config) : Becomes g c .init c
  | matchTop {x : Symbol} (inside : x ≠ Grammar.endOfInput) (stack input : List Symbol) :
    Becomes g ⟨x :: stack, x :: input⟩ (.matchTop x) ⟨stack, input⟩
  | discard {action : Action} {top found : Symbol} (discards : action.Discards top found)
    (inside : found ≠ Grammar.endOfInput) (stack input : List Symbol) :
    Becomes g ⟨top :: stack, found :: input⟩ action ⟨top :: stack, input⟩
  | discardEnd {action : Action} {top : Symbol} (discards : action.Discards top Grammar.endOfInput)
    (stack input : List Symbol) :
    Becomes g ⟨top :: stack, Grammar.endOfInput :: input⟩ action
      ⟨top :: stack, Grammar.endOfInput :: input⟩
  | expand {r : RuleId} {rule : Rule} (known : g.rule? r = some rule) (a : Symbol)
    (stack input : List Symbol) :
    Becomes g ⟨a :: stack, input⟩ (.expand r) ⟨rule.rhs ++ stack, input⟩
  | extract (a x : Symbol) (stack input : List Symbol) :
    Becomes g ⟨a :: stack, x :: input⟩ (.extract a x) ⟨stack, x :: input⟩

/-- One recorded step comes right after the other. -/
structure Step.LeadsTo (g : Grammar) (s s' : Step) : Prop where
  config : s.config.Becomes g s.action s'.config
  /-- An attempt to discard the end of input ends the run. -/
  stuck : ∀ top, s.action.Discards top Grammar.endOfInput →
    s'.action = .reject .inputExhausted ∨ s'.action = .reject .stepLimit

/-- The trace is the record of a run on the tokens, from the first step to the last. -/
structure Trace.Replays (t : Trace) (g : Grammar) (options : RunOptions) (tokens : List Symbol) :
    Prop where
  /-- The second step is taken in the configuration of the first. -/
  opening : ∃ action rest,
    t.steps = ⟨⟨[g.start, Grammar.endOfInput], tokens ++ [Grammar.endOfInput]⟩, .init⟩ ::
      ⟨⟨[g.start, Grammar.endOfInput], tokens ++ [Grammar.endOfInput]⟩, action⟩ :: rest
  initial : ∀ s ∈ t.steps.tail, s.action ≠ .init
  chain : t.steps.IsChain (Step.LeadsTo g)
  /-- The step after `n` others, and after the initial one, is refused exactly by a limit up to
      `n`. -/
  limit : ∀ n s, t.steps[n + 1]? = some s →
    (s.action = .reject .stepLimit ↔ ∃ limit, options.stepLimit? = some limit ∧ limit ≤ n)
  stack : ∀ s ∈ t.steps, ∃ above, s.config.stack = above ++ [Grammar.endOfInput]
  input : ∀ s ∈ t.steps, s.config.input ≠ [] ∧ s.config.input <:+ tokens ++ [Grammar.endOfInput]
  ending : ∃ past s, t.steps = past ++ [s] ∧ s.action.Names t.status ∧
    ∀ s' ∈ past, ∀ status, ¬ s'.action.Names status
  ended : t.status ≠ .running

theorem Action.names_iff {action : Action} {status : RunStatus} :
    action.Names status ↔ action.outcome? = some status := by
  refine ⟨?_, ?_⟩
  · rintro (_ | _) <;> rfl
  · intro h
    cases action with
    | accept => exact Option.some.inj h ▸ .accept
    | reject why => exact Option.some.inj h ▸ .reject why
    | init => cases h
    | matchTop => cases h
    | mismatch => cases h
    | expand => cases h
    | extract => cases h
    | explore => cases h

/-! ## Machines above the end of input -/

/-- There is a `$` below the stack and one behind the input, which is what is left of the tokens. -/
structure Machine.Grounded (tokens : List Symbol) (m : Machine) : Prop where
  stack : ∃ above, m.config.stack = above ++ [Grammar.endOfInput]
  nonempty : m.config.input ≠ []
  suffix : m.config.input <:+ tokens ++ [Grammar.endOfInput]

namespace Machine

variable {m : Machine} {tokens : List Symbol}

/-- Neither the stack nor the input is empty. -/
theorem Grounded.exists_eq (h : m.Grounded tokens) :
    ∃ x stack y input stuck, m = ⟨⟨x :: stack, y :: input⟩, stuck⟩ := by
  obtain ⟨⟨stack, input⟩, stuck⟩ := m
  obtain ⟨above, rfl⟩ := h.stack
  obtain ⟨y, input, rfl⟩ := List.exists_cons_of_ne_nil h.nonempty
  cases above with
  | nil => exact ⟨_, _, _, _, _, rfl⟩
  | cons x above => exact ⟨_, _, _, _, _, rfl⟩

/-- Above the bottom, something is left when the top of the stack is taken off. -/
theorem Grounded.tail_stack (h : m.Grounded tokens) (above : m.top ≠ Grammar.endOfInput) :
    ∃ rest, m.config.stack.tail = rest ++ [Grammar.endOfInput] := by
  obtain ⟨rest, hrest⟩ := h.stack
  cases rest with
  | nil => simp [top, hrest] at above
  | cons x rest => exact ⟨rest, by simp [hrest]⟩

/-- Before the end, something is left when an input symbol is taken off. -/
theorem Grounded.consume (h : m.Grounded tokens) (inside : m.lookahead ≠ Grammar.endOfInput) :
    m.config.input.tail ≠ [] ∧ m.config.input.tail <:+ tokens ++ [Grammar.endOfInput] := by
  refine ⟨?_, (List.tail_suffix _).trans h.suffix⟩
  intro hnil
  obtain ⟨x, stack, y, input, stuck, rfl⟩ := h.exists_eq
  obtain rfl : input = [] := hnil
  obtain ⟨before, hbefore⟩ := h.suffix
  exact inside (List.singleton_inj.1 (List.append_inj_right' hbefore rfl))

theorem Grounded.discard (h : m.Grounded tokens) : m.discard.Grounded tokens := by
  unfold Machine.discard
  split
  · exact ⟨h.stack, h.nonempty, h.suffix⟩
  · next hlook =>
    obtain ⟨hne, hsuffix⟩ := h.consume hlook
    exact ⟨h.stack, hne, hsuffix⟩

end Machine

namespace Parser

variable {p : Parser} {n : Nat} {m m' : Machine} {steps : List Step} {action : Action}
  {tokens : List Symbol}

/-- A discarded symbol is the lookahead, and the machine keeps its stack. -/
theorem Takes.of_discards {top found : Symbol} (htakes : p.Takes m action)
    (h : action.Discards top found) :
    top = m.top ∧ found = m.lookahead ∧ p.apply m action = m.discard := by
  cases htakes with
  | mismatch => cases h; exact ⟨rfl, rfl, rfl⟩
  | explore => cases h; exact ⟨rfl, rfl, rfl⟩
  | matchTop => cases h
  | expand => cases h
  | extract => cases h

theorem Takes.grounded (h : m.Grounded tokens) (htakes : p.Takes m action) :
    (p.apply m action).Grounded tokens := by
  cases htakes with
  | matchTop above terminal agree =>
    obtain ⟨hne, hsuffix⟩ := h.consume (agree ▸ above)
    exact ⟨h.tail_stack above, hne, hsuffix⟩
  | mismatch => exact h.discard
  | @expand above notTerminal nonterminal r rule cell known =>
    obtain ⟨rest, hrest⟩ := h.tail_stack above
    rw [apply_of_rule? known]
    refine ⟨⟨rule.rhs ++ rest, ?_⟩, h.nonempty, h.suffix⟩
    simp [Machine.push, Machine.pop, hrest]
  | extract above => exact ⟨h.tail_stack above, h.nonempty, h.suffix⟩
  | explore => exact h.discard

theorem Grounded.invariant (p : Parser) (tokens : List Symbol) :
    p.Invariant tokens fun _ m => m.Grounded tokens where
  start := ⟨⟨[p.grammar.start], rfl⟩, by simp [Machine.init], List.suffix_refl _⟩
  init := ⟨⟨[p.grammar.start], rfl⟩, by simp [Machine.init], List.suffix_refl _⟩
  step _ _ _ h goes := (takes_of_goes goes).2.grounded h

/-! ## Steps -/

theorem becomes_discard {g : Grammar} {x y : Symbol} {stack input : List Symbol} {stuck : Bool}
    (h : action.Discards x y) :
    Config.Becomes g ⟨x :: stack, y :: input⟩ action
      (Machine.discard ⟨⟨x :: stack, y :: input⟩, stuck⟩).config := by
  unfold Machine.discard
  split
  · next hlook =>
    obtain rfl : y = Grammar.endOfInput := hlook
    exact .discardEnd h stack input
  · next hlook => exact .discard h hlook stack input

/-- A step makes of its configuration what its action says. -/
theorem Takes.becomes (h : m.Grounded tokens) (htakes : p.Takes m action) :
    m.config.Becomes p.grammar action (p.apply m action).config := by
  obtain ⟨x, stack, y, input, stuck, rfl⟩ := h.exists_eq
  cases htakes with
  | matchTop above terminal agree =>
    obtain rfl : x = y := agree
    exact .matchTop above stack input
  | mismatch above terminal differ => exact becomes_discard (.mismatch x y)
  | @expand above notTerminal nonterminal r rule cell known =>
    rw [apply_of_rule? known]
    exact .expand known x stack (y :: input)
  | extract above => exact .extract x y stack input
  | explore above => exact becomes_discard (.explore x y)

/-- Only a limit on the number of steps stops a run because of this number. -/
theorem next_eq_stepLimit :
    p.next n m = .reject .stepLimit ↔ ∃ limit, p.options.stepLimit? = some limit ∧ limit ≤ n := by
  have hexhausted : p.options.exhausted n = true ↔
      ∃ limit, p.options.stepLimit? = some limit ∧ limit ≤ n := by
    unfold RunOptions.exhausted
    split
    · next hnone => simp [hnone]
    · next limit hsome => simp [hsome]
  rw [← hexhausted]
  refine ⟨fun h => ?_, fun h => by simp [next, h]⟩
  unfold next at h
  split at h
  · assumption
  · split at h
    · cases h
    · exact absurd h (decide_ne_stepLimit _ _ _)

theorem next_ne_init (p : Parser) (n : Nat) (m : Machine) : p.next n m ≠ .init := by
  unfold next decide consult
  repeat' split
  all_goals simp

/-- After an attempt to discard the end of input there is no other step to take. -/
theorem next_of_stuck (h : m.stuck = true) :
    p.next n m = .reject .inputExhausted ∨ p.next n m = .reject .stepLimit := by
  cases hlimit : p.options.exhausted n with
  | true => exact .inr (by simp [next, hlimit])
  | false => exact .inl (by simp [next, hlimit, h])

theorem leadsTo_of_goes (h : m.Grounded tokens) (goes : (p.next n m).outcome? = none)
    {n' : Nat} :
    Step.LeadsTo p.grammar ⟨m.config, p.next n m⟩
      ⟨(p.apply m (p.next n m)).config, p.next n' (p.apply m (p.next n m))⟩ := by
  obtain ⟨-, htakes⟩ := takes_of_goes goes
  refine ⟨htakes.becomes h, fun top hdiscards => next_of_stuck ?_⟩
  obtain ⟨-, hlook, hdiscard⟩ := htakes.of_discards hdiscards
  rw [hdiscard, Machine.discard, if_pos hlook.symm]

/-! ## Records -/

/-- The steps of a path that began after `n` steps, and the action with which it goes on. -/
def record (p : Parser) (n : Nat) (steps : List Step) (m : Machine) : List Step :=
  steps ++ [⟨m.config, p.next (n + steps.length) m⟩]

theorem record_cons (s : Step) : p.record n (s :: steps) m = s :: p.record (n + 1) steps m := by
  rw [record, record, List.length_cons, Nat.add_comm steps.length, ← Nat.add_assoc,
    List.cons_append]

theorem Path.exists_record_eq (h : p.Path n m steps m') :
    ∃ rest, p.record n steps m' = ⟨m.config, p.next n m⟩ :: rest := by
  cases h with
  | nil => exact ⟨[], rfl⟩
  | cons goes rest => exact ⟨_, record_cons _⟩

theorem Path.isChain_record (h : p.Path n m steps m') (hm : m.Grounded tokens) :
    (p.record n steps m').IsChain (Step.LeadsTo p.grammar) := by
  induction h with
  | nil => exact .singleton _
  | cons goes rest ih =>
    have hnext := ih ((takes_of_goes goes).2.grounded hm)
    obtain ⟨tail, htail⟩ := rest.exists_record_eq
    rw [record_cons]
    rw [htail] at hnext ⊢
    exact .cons_cons (leadsTo_of_goes hm goes) hnext

/-- The step number `i` of a record was taken by a machine that took as many steps before. -/
theorem Path.exists_of_getElem?_record (h : p.Path n m steps m') {i : Nat} {s : Step}
    (hs : (p.record n steps m')[i]? = some s) :
    ∃ m'', s = ⟨m''.config, p.next (n + i) m''⟩ := by
  induction h generalizing i with
  | nil n m =>
    cases i with
    | zero => exact ⟨m, (Option.some.inj hs).symm⟩
    | succ i => simp [record] at hs
  | cons goes rest ih =>
    rw [record_cons] at hs
    cases i with
    | zero => exact ⟨_, (Option.some.inj hs).symm⟩
    | succ i =>
      rw [Nat.add_comm i, ← Nat.add_assoc]
      exact ih hs

/-- None of the steps of a path ends the run. -/
theorem Path.outcome?_eq_none (h : p.Path n m steps m') :
    ∀ s ∈ steps, s.action.outcome? = none := by
  induction h with
  | nil => simp
  | cons goes _ ih => exact List.forall_mem_cons.2 ⟨goes, ih⟩

/-- Every run that ends leaves a record that replays, whatever grammar, table, limit and tokens it
    was started with. -/
theorem EndsWith.replays {t : Trace} (h : p.EndsWith tokens t) :
    t.Replays p.grammar p.options tokens := by
  have hground : ∀ s ∈ t.steps, ∃ m : Machine, m.Grounded tokens ∧ s.config = m.config := by
    intro s hs
    obtain ⟨past, m, hm, hconfig, -⟩ := (Grounded.invariant p tokens).of_mem_steps h hs
    exact ⟨m, hm, hconfig⟩
  have hended := h.1
  obtain ⟨pre, m', status, hpath, hstops, rfl⟩ := endsWith_iff.1 h
  have hrecord : pre ++ [⟨m'.config, p.next pre.length m'⟩] = p.record 0 pre m' := by
    rw [record, Nat.zero_add]
  obtain ⟨rest, hrest⟩ := hpath.exists_record_eq
  simp only [List.cons_append, hrecord] at hground ⊢
  refine ⟨⟨_, rest, by rw [hrest]; rfl⟩, ?_, ?_, ?_, ?_, ?_, ?_, hended⟩
  · intro s hs
    obtain ⟨i, hi⟩ := List.mem_iff_getElem?.1 hs
    obtain ⟨m, rfl⟩ := hpath.exists_of_getElem?_record hi
    exact next_ne_init p _ m
  · have hchain := hpath.isChain_record (Grounded.invariant p tokens).start
    rw [hrest] at hchain ⊢
    exact .cons_cons ⟨.init _, fun top hdiscards => nomatch hdiscards⟩ hchain
  · intro n s hs
    obtain ⟨m, rfl⟩ := hpath.exists_of_getElem?_record (List.getElem?_cons_succ ▸ hs)
    rw [Nat.zero_add]
    exact next_eq_stepLimit
  · intro s hs
    obtain ⟨m, hm, hconfig⟩ := hground s hs
    exact hconfig ▸ hm.stack
  · intro s hs
    obtain ⟨m, hm, hconfig⟩ := hground s hs
    exact hconfig ▸ ⟨hm.nonempty, hm.suffix⟩
  · refine ⟨_ :: pre, _, rfl, Action.names_iff.2 ((Nat.zero_add pre.length).symm ▸ hstops), ?_⟩
    intro s hs status hnames
    have hnone : s.action.outcome? = none := by
      rcases List.mem_cons.1 hs with rfl | hs
      · rfl
      · exact hpath.outcome?_eq_none s hs
    simp [Action.names_iff.1 hnames] at hnone

/-- The table of the grammar in which `a` and `b` have changed places. -/
def mirroredTable : ParseTable :=
  .ofGrammar ((Builder.ofSteps [.createSymbol (some "S"), .createSymbol (some "a"),
    .createSymbol (some "b"), .addRules ⟨1⟩ [[⟨3⟩, ⟨1⟩, ⟨2⟩], []]]).layout ⟨1⟩)

/-- With the mirrored table, `b` makes the parser expand `S → a S b` and discard all input. -/
theorem replays_mirrored :
    let p : Parser := ⟨.nested, mirroredTable, {}⟩
    (p.parse [⟨3⟩]).actions = [.init, .expand ⟨0⟩, .mismatch ⟨2⟩ ⟨3⟩, .mismatch ⟨2⟩ ⟨0⟩,
      .reject .inputExhausted] ∧
    p.EndsWith [⟨3⟩] (p.parse [⟨3⟩]) ∧ (p.parse [⟨3⟩]).Replays .nested {} [⟨3⟩] := by
  intro p
  have hends : p.EndsWith [⟨3⟩] (p.parse [⟨3⟩]) := ⟨by decide +kernel, _, rfl⟩
  exact ⟨by decide +kernel, hends, hends.replays⟩

end Parser

end Predictive
