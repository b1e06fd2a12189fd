-- SUMMARY: Archived symbols, actions, traces and options read back, and so does every recorded run.
import Predictive.Parse.Archive
import Predictive.Proofs.Grammar.Built
import Predictive.Proofs.Json.Form
import Predictive.Proofs.Parse.Run

/-!
# Archives read back

An archive refuses numbers that do not fit into a machine word, and a value is representable if all
of its numbers fit. The form of each kind is faithful to the representable values of the kind. A
parser records no symbols but those of its grammar and of its input, and no rules but existing ones,
so the trace of a run is representable if the grammar and the input are.
-/

namespace Predictive

open JsonForm

/-! ## Symbols, rules and cells -/

def RuleId.Representable (r : RuleId) : Prop := r.index < wordBound

def Cell.Representable : Cell → Prop
  | .rule r => r.Representable
  | .extract | .explore => True

theorem Symbol.faithful : Faithful Symbol Representable where
  reads {x} hx := by
    simp only [toJson, ofJson?, Json.field?_record]
    exact if_pos hx
  only {j x} hread := by
    simp only [ofJson?] at hread
    split at hread
    · obtain ⟨hlt, heq⟩ := Option.ite_none_right_eq_some.1 hread
      cases heq
      exact hlt
    · cases hread

theorem RuleId.faithful : Faithful RuleId Representable where
  reads hr := if_pos hr
  only {j r} hread := by
    simp only [ofJson?] at hread
    split at hread
    · obtain ⟨hlt, heq⟩ := Option.ite_none_right_eq_some.1 hread
      cases heq
      exact hlt
    · cases hread

theorem Cell.faithful : Faithful Cell Representable where
  reads {c} hc := by
    cases c with
    | rule r =>
      calc ofJson? (toJson (rule r)) = (ofJson? (toJson r)).map rule := rfl
        _ = some (rule r) := by rw [RuleId.faithful.reads hc, Option.map_some]
    | extract => rfl
    | explore => rfl
  only {j c} hread := by
    simp only [ofJson?] at hread
    split at hread
    · cases hread
      trivial
    · cases hread
      trivial
    · split at hread
      · obtain ⟨r, hr, rfl⟩ := Option.map_eq_some_iff.1 hread
        exact RuleId.faithful.only hr
      · cases hread

/-! ## Actions -/

theorem Rejection.faithful : Faithful Rejection fun _ => True where
  reads {why} _ := by cases why <;> rfl
  only _ := trivial

theorem RunStatus.faithful : Faithful RunStatus fun _ => True where
  reads {status} _ := by
    cases status with
    | running => rfl
    | accepted => rfl
    | rejected why => cases why <;> rfl
  only _ := trivial

theorem symbolPair?_symbolPair {first second : String} (hne : first ≠ second) {x y : Symbol}
    (hx : x.Representable) (hy : y.Representable) :
    symbolPair? first second (symbolPair first second x y) = some (x, y) := by
  simp [symbolPair?, symbolPair, Json.twoFields?_record hne, Symbol.faithful.reads hx,
    Symbol.faithful.reads hy]

theorem of_symbolPair? {first second : String} {j : Json} {x y : Symbol}
    (h : symbolPair? first second j = some (x, y)) : x.Representable ∧ y.Representable := by
  simp only [symbolPair?, Option.bind_eq_bind, Option.bind_eq_some_iff, Option.some.injEq,
    Prod.mk.injEq] at h
  obtain ⟨⟨j₁, j₂⟩, -, x', hx, y', hy, rfl, rfl⟩ := h
  exact ⟨Symbol.faithful.only hx, Symbol.faithful.only hy⟩

/-- The symbols and the rule of an action fit. -/
def Action.Representable : Action → Prop
  | .init | .accept | .reject _ => True
  | .matchTop x => x.Representable
  | .expand r => r.Representable
  | .mismatch x y | .extract x y | .explore x y => x.Representable ∧ y.Representable

theorem Action.faithful : Faithful Action Representable where
  reads {action} h := by
    cases action with
    | init => rfl
    | accept => rfl
    | reject why =>
      calc ofJson? (toJson (reject why)) = (ofJson? (toJson why)).map reject := by cases why <;> rfl
        _ = some (reject why) := by rw [Rejection.faithful.reads trivial, Option.map_some]
    | matchTop x =>
      calc ofJson? (toJson (matchTop x)) = (ofJson? (toJson x)).map matchTop := rfl
        _ = some (matchTop x) := by rw [Symbol.faithful.reads h, Option.map_some]
    | expand r =>
      calc ofJson? (toJson (expand r)) = (ofJson? (toJson r)).map expand := rfl
        _ = some (expand r) := by rw [RuleId.faithful.reads h, Option.map_some]
    | mismatch x y =>
      calc ofJson? (toJson (mismatch x y))
        _ = (symbolPair? "expected" "found" (symbolPair "expected" "found" x y)).map
              fun pair => mismatch pair.1 pair.2 := rfl
        _ = some (mismatch x y) := by
          rw [symbolPair?_symbolPair (by decide) h.1 h.2, Option.map_some]
    | extract a x =>
      calc ofJson? (toJson (extract a x))
        _ = (symbolPair? "nonterminal" "lookahead" (symbolPair "nonterminal" "lookahead" a x)).map
              fun pair => extract pair.1 pair.2 := rfl
        _ = some (extract a x) := by
          rw [symbolPair?_symbolPair (by decide) h.1 h.2, Option.map_some]
    | explore a x =>
      calc ofJson? (toJson (explore a x))
        _ = (symbolPair? "nonterminal" "lookahead" (symbolPair "nonterminal" "lookahead" a x)).map
              fun pair => explore pair.1 pair.2 := rfl
        _ = some (explore a x) := by
          rw [symbolPair?_symbolPair (by decide) h.1 h.2, Option.map_some]
  only {j action} hread := by
    simp only [ofJson?] at hread
    -- A name alone comes first, then each name with the content that it needs.
    split at hread
    · cases hread
      trivial
    · cases hread
      trivial
    · split at hread
      · obtain ⟨why, -, rfl⟩ := Option.map_eq_some_iff.1 hread
        trivial
      · obtain ⟨x, hx, rfl⟩ := Option.map_eq_some_iff.1 hread
        exact Symbol.faithful.only hx
      · obtain ⟨⟨x, y⟩, hpair, rfl⟩ := Option.map_eq_some_iff.1 hread
        exact of_symbolPair? hpair
      · obtain ⟨r, hr, rfl⟩ := Option.map_eq_some_iff.1 hread
        exact RuleId.faithful.only hr
      · obtain ⟨⟨a, x⟩, hpair, rfl⟩ := Option.map_eq_some_iff.1 hread
        exact of_symbolPair? hpair
      · obtain ⟨⟨a, x⟩, hpair, rfl⟩ := Option.map_eq_some_iff.1 hread
        exact of_symbolPair? hpair
      · cases hread

/-! ## Traces and options -/

/-- The symbols of a step and what its action tells of them fit. -/
structure Step.Representable (s : Step) : Prop where
  stack : ∀ x ∈ s.config.stack, x.Representable
  input : ∀ x ∈ s.config.input, x.Representable
  action : s.action.Representable

def Trace.Representable (t : Trace) : Prop := ∀ s ∈ t.steps, s.Representable

def RunOptions.Representable (o : RunOptions) : Prop := ∀ limit ∈ o.stepLimit?, limit < wordBound

theorem Step.faithful : Faithful Step Representable where
  reads {s} h := by
    have hstack : ofJson? (toJson s.stackUpward) = some s.stackUpward :=
      Symbol.faithful.list.reads fun x hx => h.stack x (List.mem_reverse.1 hx)
    have hinput : ofJson? (toJson s.config.input) = some s.config.input :=
      Symbol.faithful.list.reads h.input
    have haction : ofJson? (toJson s.action) = some s.action := Action.faithful.reads h.action
    have hfields : (toJson s).threeFields? "stack" "input" "action" =
        some (toJson s.stackUpward, toJson s.config.input, toJson s.action) :=
      Json.threeFields?_record (by decide) (by decide) (by decide)
    refine Option.bind_eq_some_iff.2 ⟨_, hfields, ?_⟩
    refine Option.bind_eq_some_iff.2 ⟨_, hstack, ?_⟩
    refine Option.bind_eq_some_iff.2 ⟨_, hinput, ?_⟩
    refine Option.bind_eq_some_iff.2 ⟨_, haction, ?_⟩
    rw [stackUpward, List.reverse_reverse]
  only {j s} hread := by
    obtain ⟨fields, -, hread⟩ := Option.bind_eq_some_iff.1 hread
    obtain ⟨stack, hstack, hread⟩ := Option.bind_eq_some_iff.1 hread
    obtain ⟨input, hinput, hread⟩ := Option.bind_eq_some_iff.1 hread
    obtain ⟨action, haction, hread⟩ := Option.bind_eq_some_iff.1 hread
    cases hread
    exact ⟨fun x hx => Symbol.faithful.list.only hstack x (List.mem_reverse.1 hx),
      Symbol.faithful.list.only hinput, Action.faithful.only haction⟩

theorem Trace.faithful : Faithful Trace Representable where
  reads {t} h := by
    have hsteps : ofJson? (toJson t.steps) = some t.steps := Step.faithful.list.reads h
    have hstatus : ofJson? (toJson t.status) = some t.status := RunStatus.faithful.reads trivial
    have hfields : (toJson t).twoFields? "steps" "status" =
        some (toJson t.steps, toJson t.status) := Json.twoFields?_record (by decide)
    refine Option.bind_eq_some_iff.2 ⟨_, hfields, ?_⟩
    refine Option.bind_eq_some_iff.2 ⟨_, hsteps, ?_⟩
    exact Option.bind_eq_some_iff.2 ⟨_, hstatus, rfl⟩
  only {j t} hread := by
    obtain ⟨fields, -, hread⟩ := Option.bind_eq_some_iff.1 hread
    obtain ⟨steps, hsteps, hread⟩ := Option.bind_eq_some_iff.1 hread
    obtain ⟨status, -, hread⟩ := Option.bind_eq_some_iff.1 hread
    cases hread
    exact Step.faithful.list.only hsteps

/-- The absence of a limit is written as `null` and not left out, which would mean the default. -/
theorem RunOptions.faithful : Faithful RunOptions Representable where
  reads {o} h := by
    obtain ⟨limit | limit⟩ := o
    · rfl
    · exact if_pos (h limit rfl)
  only {j o} hread := by
    simp only [ofJson?] at hread
    split at hread
    -- Nothing is given, and the default limit fits.
    · cases hread
      intro limit hlimit
      cases hlimit
      decide
    · cases hread
      intro limit hlimit
      cases hlimit
    · obtain ⟨hlt, heq⟩ := Option.ite_none_right_eq_some.1 hread
      cases heq
      intro limit hlimit
      cases hlimit
      exact hlt
    · cases hread

/-! ## Recorded runs -/

/-- The symbols of a grammar fit, and so do the numbers of its rules. -/
structure Grammar.Representable (g : Grammar) : Prop where
  start : g.start.Representable
  rhs : ∀ rule ∈ g.rules, ∀ x ∈ rule.rhs, x.Representable
  rules : g.rules.size ≤ wordBound

/-- A built grammar is representable unless it has too many symbols or rules. -/
theorem Grammar.Built.representable {g : Grammar} (h : g.Built)
    (hsymbols : g.table.size ≤ Symbol.bound) (hrules : g.rules.size ≤ wordBound) :
    g.Representable where
  start := Nat.lt_of_lt_of_le h.lt_size.1 hsymbols
  rhs rule hrule x hx := Nat.lt_of_lt_of_le (h.lt_size.2 rule hrule x hx) hsymbols
  rules := hrules

theorem Grammar.Representable.rule {g : Grammar} (h : g.Representable) {r : RuleId} {rule : Rule}
    (hrule : g.rule? r = some rule) : r.Representable := by
  obtain ⟨hlt, -⟩ := Array.getElem?_eq_some_iff.1 hrule
  exact Nat.lt_of_lt_of_le hlt h.rules

/-- The symbols on the stack and in the input fit. -/
structure Machine.Representable (m : Machine) : Prop where
  stack : ∀ x ∈ m.config.stack, x.Representable
  input : ∀ x ∈ m.config.input, x.Representable

theorem Grammar.representable_endOfInput : endOfInput.Representable := by decide

namespace Machine.Representable

variable {m : Machine} (h : m.Representable)
include h

theorem top : m.top.Representable :=
  Machine.top_of_forall Grammar.representable_endOfInput h.stack

theorem lookahead : m.lookahead.Representable :=
  Machine.lookahead_of_forall Grammar.representable_endOfInput h.input

end Machine.Representable

namespace Parser

variable {p : Parser} {m : Machine} {tokens : List Symbol}

theorem representable_consult (hg : p.grammar.Representable) {a x : Symbol}
    (ha : a.Representable) (hx : x.Representable) : (p.consult a x).Representable := by
  unfold consult
  split
  · next r _ =>
    -- The table may be one of another grammar, but only a rule that exists is expanded.
    cases hrule : p.grammar.rule? r with
    | none => trivial
    | some rule => exact hg.rule hrule
  · exact ⟨ha, hx⟩
  · exact ⟨ha, hx⟩
  · trivial

theorem representable_decide (hg : p.grammar.Representable) {x y : Symbol}
    (hx : x.Representable) (hy : y.Representable) : (p.decide x y).Representable := by
  unfold decide
  split
  · split <;> trivial
  · split
    · split
      · exact hx
      · exact ⟨hx, hy⟩
    · split
      · exact representable_consult hg hx hy
      · trivial

theorem representable_next (hg : p.grammar.Representable) (h : m.Representable) (n : Nat) :
    (p.next n m).Representable := by
  unfold next
  split
  · trivial
  · split
    · trivial
    · exact representable_decide hg h.top h.lookahead

theorem representable_apply (hg : p.grammar.Representable) (h : m.Representable)
    (action : Action) : (p.apply m action).Representable where
  stack x hx := by
    rcases mem_stack_of_apply hx with hx | ⟨r, rule, hrule, hx⟩
    · exact h.stack x hx
    · exact hg.rhs rule (Grammar.mem_rules_of_rule? hrule) x hx
  input x hx := h.input x (mem_input_of_apply hx)

theorem representable_invariant (hg : p.grammar.Representable)
    (htokens : ∀ x ∈ tokens, x.Representable) : p.Invariant tokens fun _ m => m.Representable := by
  have hinit : (Machine.init p.grammar.start tokens).Representable := by
    have hend := Grammar.representable_endOfInput
    exact ⟨by simpa [Machine.init, hend] using hg.start,
      by simpa [Machine.init, hend, or_imp, forall_and] using htokens⟩
  exact ⟨hinit, hinit, fun _ _ _ h _ => representable_apply hg h _⟩

/-- However long the run is, what it recorded fits into an archive. -/
theorem representable_parseWithin (hg : p.grammar.Representable)
    (htokens : ∀ x ∈ tokens, x.Representable) (fuel : Nat) :
    (p.parseWithin fuel tokens).Representable := by
  intro s hs
  obtain ⟨-, m, hm, hconfig, haction⟩ :=
    (representable_invariant hg htokens).of_mem_steps_parseWithin hs
  refine ⟨hconfig ▸ hm.stack, hconfig ▸ hm.input, ?_⟩
  rcases haction with hinit | ⟨n, hnext⟩
  · rw [hinit]
    trivial
  · rw [hnext]
    exact representable_next hg hm n

end Parser

/-! ## Archives -/

/-- Whatever an archive can hold is read back from the document written for it, and a document that
    is accepted in another spelling is normalised without changing what it stands for. The trace of
    every run is among what an archive can hold, and so is the absence of a step limit, which is not
    mistaken for the default. -/
theorem archives_readBack :
    ReadsBack Symbol Symbol.Representable ∧
    ReadsBack RuleId RuleId.Representable ∧
    ReadsBack Cell Cell.Representable ∧
    ReadsBack Rejection (fun _ => True) ∧
    ReadsBack RunStatus (fun _ => True) ∧
    ReadsBack Action Action.Representable ∧
    ReadsBack Step Step.Representable ∧
    ReadsBack Trace Trace.Representable ∧
    ReadsBack RunOptions RunOptions.Representable ∧
    (∀ (p : Parser) (tokens : List Symbol), p.grammar.Representable →
      (∀ x ∈ tokens, x.Representable) →
      ofDocument? (toDocument (p.parse tokens)) = some (p.parse tokens)) ∧
    ofDocument? (toDocument RunOptions.unlimited) = some RunOptions.unlimited ∧
    RunOptions.unlimited ≠ {} := by
  refine ⟨Symbol.faithful.readsBack, RuleId.faithful.readsBack, Cell.faithful.readsBack,
    Rejection.faithful.readsBack, RunStatus.faithful.readsBack, Action.faithful.readsBack,
    Step.faithful.readsBack, Trace.faithful.readsBack, RunOptions.faithful.readsBack, ?_, ?_, ?_⟩
  · intro p tokens hg htokens
    exact Trace.faithful.readsBack.written _
      (Parser.representable_parseWithin hg htokens p.options.fuel)
  · exact RunOptions.faithful.readsBack.written _ (by rintro limit ⟨⟩)
  · decide

/-- A run that discards one terminal, and the mismatch in it spelled with arrays and blanks. -/
theorem archives_readBack_mismatch :
    let p := Parser.ofGrammar Grammar.nested {}
    let tokens : List Symbol := [⟨2⟩, ⟨2⟩, ⟨3⟩]
    let action : Action := .mismatch ⟨3⟩ ⟨2⟩
    p.grammar.Representable ∧ (∀ x ∈ tokens, x.Representable) ∧
    ofDocument? (toDocument (p.parse tokens)) = some (p.parse tokens) ∧
    action.Representable ∧ ofDocument? (toDocument action) = some action ∧
    ofDocument? "\x7b \"Mismatch\" : [ [4] , \x7b\"n\":3\x7d ] \x7d" = some action := by
  intro p tokens action
  obtain ⟨-, -, -, -, -, haction, -, -, -, hparse, -⟩ := archives_readBack
  have hg : p.grammar.Representable :=
    Grammar.built_nested.representable (by decide +kernel) (by decide +kernel)
  have htokens : ∀ x ∈ tokens, x.Representable := by decide
  have hread : ofDocument? "\x7b \"Mismatch\" : [ [4] , \x7b\"n\":3\x7d ] \x7d" = some action := by
    decide +kernel
  obtain ⟨hfits, hagain⟩ := haction.rewritten _ _ hread
  exact ⟨hg, htokens, hparse p tokens hg htokens, hfits, hagain, hread⟩

end Predictive
