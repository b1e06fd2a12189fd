-- SUMMARY: What a run takes from its input: each symbol in its turn, and nothing from the first `$` on.
import Predictive.Proofs.Parse.Replay
import Predictive.Proofs.Parse.Soundness

/-!
# Consumption

An input symbol is taken off when it is matched or discarded. The end of input is never taken off:
it cannot be matched, and an attempt to discard it leaves it in its place. So the symbols taken off
so far, and those up to the first `$` of what is left, are always the symbols up to the first `$` of
the whole input, and no run depends on anything that stands behind this `$`.
-/

namespace Predictive

/-- The input symbol that an action takes off. -/
def Action.consumed? : Action → Option Symbol
  | .matchTop x => some x
  | .mismatch _ x | .explore _ x => if x = Grammar.endOfInput then none else some x
  | .init | .accept | .reject _ | .expand _ | .extract _ _ => none

/-- The input symbols that some steps take off, in order. -/
def Step.consumedIn (steps : List Step) : List Symbol :=
  steps.filterMap fun s => s.action.consumed?

/-- The symbols before the first `$`. -/
def beforeEnd (xs : List Symbol) : List Symbol :=
  xs.takeWhile (· != Grammar.endOfInput)

theorem beforeEnd_cons {x : Symbol} (hx : x ≠ Grammar.endOfInput) (xs : List Symbol) :
    beforeEnd (x :: xs) = x :: beforeEnd xs :=
  List.takeWhile_cons_of_pos (by simpa using hx)

theorem beforeEnd_append {xs : List Symbol} (h : Grammar.endOfInput ∉ xs) (ys : List Symbol) :
    beforeEnd (xs ++ Grammar.endOfInput :: ys) = xs := by
  have hall : ∀ x ∈ xs, (x != Grammar.endOfInput) = true := by
    intro x hx
    simpa using ne_of_mem_of_not_mem hx h
  rw [beforeEnd, List.takeWhile_append_of_pos hall]
  simp

namespace Step

theorem consumedIn_cons (s : Step) (steps : List Step) :
    consumedIn (s :: steps) = s.action.consumed?.toList ++ consumedIn steps := by
  cases h : s.action.consumed? <;> simp [consumedIn, h]

theorem consumedIn_concat (steps : List Step) (s : Step) :
    consumedIn (steps ++ [s]) = consumedIn steps ++ s.action.consumed?.toList := by
  cases h : s.action.consumed? <;> simp [consumedIn, h]

/-- What is matched is taken off. -/
theorem matchedIn_sublist (steps : List Step) : (matchedIn steps).Sublist (consumedIn steps) := by
  induction steps with
  | nil => exact .slnil
  | cons s steps ih =>
    obtain ⟨config, action⟩ := s
    rw [consumedIn_cons]
    cases action with
    | matchTop x => exact ih.cons_cons x
    | mismatch expected found => exact ih.trans (List.sublist_append_right _ _)
    | explore a x => exact ih.trans (List.sublist_append_right _ _)
    | init => exact ih
    | accept => exact ih
    | reject why => exact ih
    | expand r => exact ih
    | extract a x => exact ih

end Step

/-! ## Symbols taken off -/

namespace Machine

variable {m : Machine}

theorem beforeEnd_input (h : m.lookahead ≠ Grammar.endOfInput) :
    beforeEnd m.config.input = m.lookahead :: beforeEnd m.config.input.tail := by
  conv_lhs => rw [input_eq h]
  exact beforeEnd_cons h _

theorem beforeEnd_discard (m : Machine) :
    (if m.lookahead = Grammar.endOfInput then none else some m.lookahead).toList ++
      beforeEnd m.discard.config.input = beforeEnd m.config.input := by
  unfold discard
  split
  · rfl
  · next h => exact (beforeEnd_input h).symm

end Machine

namespace Parser

variable {p : Parser} {m : Machine} {action : Action} {tokens : List Symbol}

/-- A step takes its symbol off the beginning of the input. -/
theorem Takes.beforeEnd_apply (h : p.Takes m action) :
    action.consumed?.toList ++ beforeEnd (p.apply m action).config.input =
      beforeEnd m.config.input := by
  cases h with
  | matchTop above terminal agree =>
    have hinput := Machine.beforeEnd_input (agree ▸ above)
    rw [← agree] at hinput
    exact hinput.symm
  | mismatch => exact m.beforeEnd_discard
  | expand above notTerminal nonterminal cell known =>
    rw [apply_of_rule? known]
    rfl
  | extract => rfl
  | explore => exact m.beforeEnd_discard

/-- Nothing before the first `$` is lost on the way. -/
theorem Consumed.invariant (p : Parser) (tokens : List Symbol) :
    p.Invariant tokens fun past m =>
      Step.consumedIn past ++ beforeEnd m.config.input =
        beforeEnd (tokens ++ [Grammar.endOfInput]) where
  start := rfl
  init := rfl
  step past n m h goes := by
    rw [Step.consumedIn_concat, List.append_assoc, (takes_of_goes goes).2.beforeEnd_apply, h]

/-- What was taken off when the run is over lies before the first `$`. -/
theorem EndsWith.prefix_consumedIn {t : Trace} (h : p.EndsWith tokens t) :
    Step.consumedIn t.steps <+: beforeEnd (tokens ++ [Grammar.endOfInput]) := by
  obtain ⟨pre, m, status, hpath, hstops, rfl⟩ := endsWith_iff.1 h
  have hinv := Consumed.invariant p tokens
  have hlast := hpath.keeps hinv.step hinv.init
  have hnone : (p.next pre.length m).consumed? = none := by
    cases haction : p.next pre.length m <;>
      simp [haction, Action.outcome?, Action.consumed?] at hstops ⊢
  rw [← hlast, Step.consumedIn_concat, hnone, Option.toList_none, List.append_nil]
  exact List.prefix_append _ _

/-! ## Symbols never seen -/

end Parser

/-- The same configuration with more input behind. -/
def Config.appendInput (xs : List Symbol) (c : Config) : Config :=
  { c with input := c.input ++ xs }

def Step.appendInput (xs : List Symbol) (s : Step) : Step :=
  { s with config := s.config.appendInput xs }

/-- The same trace, but that every recorded input has more symbols behind. -/
def Trace.appendInput (xs : List Symbol) (t : Trace) : Trace :=
  { t with steps := t.steps.map (Step.appendInput xs) }

namespace Machine

def appendInput (xs : List Symbol) (m : Machine) : Machine :=
  { m with config := m.config.appendInput xs }

variable {m : Machine} (h : m.config.input ≠ []) (xs : List Symbol)
include h

theorem lookahead_appendInput : (m.appendInput xs).lookahead = m.lookahead := by
  obtain ⟨y, input, hinput⟩ := List.exists_cons_of_ne_nil h
  simp [lookahead, appendInput, Config.appendInput, hinput]

theorem consume_appendInput : (m.appendInput xs).consume = m.consume.appendInput xs := by
  simp [consume, appendInput, Config.appendInput, List.tail_append_of_ne_nil h]

theorem discard_appendInput : (m.appendInput xs).discard = m.discard.appendInput xs := by
  unfold discard
  rw [lookahead_appendInput h]
  split
  · rfl
  · exact consume_appendInput h xs

end Machine

namespace Parser

variable {p : Parser} {n : Nat} {m : Machine} {tokens : List Symbol}

theorem next_appendInput (h : m.config.input ≠ []) (xs : List Symbol) :
    p.next n (m.appendInput xs) = p.next n m := by
  unfold next
  rw [Machine.lookahead_appendInput h]
  rfl

theorem apply_appendInput (h : m.config.input ≠ []) (action : Action) (xs : List Symbol) :
    p.apply (m.appendInput xs) action = (p.apply m action).appendInput xs := by
  cases action with
  | init => rfl
  | accept => rfl
  | reject why => rfl
  | matchTop x => exact Machine.consume_appendInput (m := m.pop) h xs
  | mismatch expected found => exact Machine.discard_appendInput h xs
  | explore a x => exact Machine.discard_appendInput h xs
  | extract a x => rfl
  | expand r =>
    cases hrule : p.grammar.rule? r with
    | none => simp only [apply, hrule]; rfl
    | some rule => rw [apply_of_rule? hrule, apply_of_rule? hrule]; rfl

/-- A run never gets to what stands behind the `$` of its input. -/
theorem run_appendInput (hm : m.Grounded tokens) (fuel n : Nat) (xs : List Symbol) :
    p.run fuel n (m.appendInput xs) = (p.run fuel n m).appendInput xs := by
  induction fuel generalizing n m with
  | zero => rfl
  | succ fuel ih =>
    have hnext := next_appendInput (p := p) (n := n) hm.nonempty xs
    cases hout : (p.next n m).outcome? with
    | none =>
      rw [run_of_goes fuel hout, run_of_goes fuel (hnext ▸ hout), hnext,
        apply_appendInput hm.nonempty, ih ((takes_of_goes hout).2.grounded hm)]
      rfl
    | some status =>
      rw [run_of_stops fuel hout, run_of_stops fuel (hnext ▸ hout), hnext]
      rfl

theorem parseWithin_append_endOfInput (p : Parser) (fuel : Nat) (u v : List Symbol) :
    p.parseWithin fuel (u ++ Grammar.endOfInput :: v) =
      (p.parseWithin fuel u).appendInput (v ++ [Grammar.endOfInput]) := by
  have hinit : Machine.init p.grammar.start (u ++ Grammar.endOfInput :: v) =
      (Machine.init p.grammar.start u).appendInput (v ++ [Grammar.endOfInput]) := by
    simp [Machine.init, Machine.appendInput, Config.appendInput]
  simp only [parseWithin, hinit, run_appendInput (Grounded.invariant p u).start]
  rfl

/-- No run looks past the first `$` of its input, and none loses a symbol before it. With or without
    more symbols behind this `$`, the steps and the status are the same, but for what is recorded of
    these symbols; and at every step the symbols taken off, and those up to the first `$` of the
    rest, make up the input before the first `$`. -/
theorem reads_to_first_end (p : Parser) {u : List Symbol} (hu : Grammar.endOfInput ∉ u)
    (v : List Symbol) :
    (∀ fuel, p.parseWithin fuel (u ++ Grammar.endOfInput :: v) =
      (p.parseWithin fuel u).appendInput (v ++ [Grammar.endOfInput])) ∧
    (∀ t, p.EndsWith (u ++ Grammar.endOfInput :: v) t ↔
      ∃ t', p.EndsWith u t' ∧ t = t'.appendInput (v ++ [Grammar.endOfInput])) ∧
    ∀ tokens, tokens = u ∨ tokens = u ++ Grammar.endOfInput :: v →
      ∀ t, p.EndsWith tokens t →
        (∀ pre s post, t.steps = pre ++ s :: post →
          u = Step.consumedIn pre ++ beforeEnd s.config.input) ∧
        t.matched.Sublist u := by
  refine ⟨fun fuel => parseWithin_append_endOfInput p fuel u v, fun t => ⟨?_, ?_⟩, ?_⟩
  · rintro ⟨hstatus, fuel, rfl⟩
    have hsame := parseWithin_append_endOfInput p fuel u v
    rw [hsame] at hstatus
    exact ⟨p.parseWithin fuel u, ⟨hstatus, fuel, rfl⟩, hsame⟩
  · rintro ⟨t', ⟨hstatus, fuel, rfl⟩, rfl⟩
    exact ⟨hstatus, fuel, parseWithin_append_endOfInput p fuel u v⟩
  · intro tokens htokens t hends
    have hbefore : beforeEnd (tokens ++ [Grammar.endOfInput]) = u := by
      rcases htokens with rfl | rfl
      · exact beforeEnd_append hu []
      · rw [List.append_assoc]
        exact beforeEnd_append hu _
    refine ⟨fun pre s post hsteps => ?_, ?_⟩
    · obtain ⟨-, fuel, rfl⟩ := hends
      obtain ⟨m, hm, hconfig⟩ := (Consumed.invariant p tokens).of_steps hsteps
      rw [hconfig, hm, hbefore]
    · have hprefix := hends.prefix_consumedIn
      rw [hbefore] at hprefix
      exact (Step.matchedIn_sublist t.steps).trans hprefix.sublist

/-- With the mirrored table `b` is discarded, then the parser tries to discard the end of input, and
    it never gets to `a` behind it. -/
theorem reads_to_first_end_mirrored :
    let p : Parser := ⟨.nested, mirroredTable, {}⟩
    let t := (p.parse [⟨3⟩]).appendInput ([⟨2⟩] ++ [Grammar.endOfInput])
    Grammar.endOfInput ∉ [(⟨3⟩ : Symbol)] ∧
    p.EndsWith ([⟨3⟩] ++ Grammar.endOfInput :: [⟨2⟩]) t ∧
    t.actions = [.init, .expand ⟨0⟩, .mismatch ⟨2⟩ ⟨3⟩, .mismatch ⟨2⟩ ⟨0⟩,
      .reject .inputExhausted] ∧
    (∀ pre s post, t.steps = pre ++ s :: post →
      [⟨3⟩] = Step.consumedIn pre ++ beforeEnd s.config.input) ∧
    t.matched.Sublist [⟨3⟩] := by
  intro p t
  have hu : Grammar.endOfInput ∉ [(⟨3⟩ : Symbol)] := by decide
  have hends : p.EndsWith [⟨3⟩] (p.parse [⟨3⟩]) := ⟨by decide +kernel, _, rfl⟩
  obtain ⟨-, hiff, hreads⟩ := reads_to_first_end p hu [⟨2⟩]
  have hlonger := (hiff t).2 ⟨_, hends, rfl⟩
  obtain ⟨haccounts, hmatched⟩ := hreads _ (.inr rfl) t hlonger
  exact ⟨hu, hlonger, by decide +kernel, haccounts, hmatched⟩

end Parser

end Predictive
