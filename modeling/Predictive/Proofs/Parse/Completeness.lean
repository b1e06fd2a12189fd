-- SUMMARY: A parser whose table selects a derivation tree goes through this tree and accepts.
import Predictive.Proofs.Derivation.Selection
import Predictive.Proofs.Parse.Run

/-!
# Completeness

The parser keeps the roots of a forest on its stack and the yield in its input. If the table selects
the forest, then each step takes off its first node, and the steps are the actions of the forest.
Without conflicts, FOLLOW sets that satisfy the textbook equations select every tree, so that the
parser finds it, and there is no second one.
-/

namespace Predictive

namespace Action

def expanded? : Action → Option RuleId
  | .expand r => some r
  | _ => none

def matched? : Action → Option Symbol
  | .matchTop x => some x
  | _ => none

end Action

namespace Trace

/-- The rules expanded during the run, in order. -/
def expansions (t : Trace) : List RuleId := t.actions.filterMap Action.expanded?

theorem matched_eq_actions (t : Trace) : t.matched = t.actions.filterMap Action.matched? := by
  simp only [matched, actions, List.filterMap_map]
  rfl

theorem hasErrors_eq_actions (t : Trace) : t.hasErrors = t.actions.any Action.isRecovery := by
  simp [hasErrors, actions, Function.comp_def]

/-- The run goes through the forest, from its top and from its left, and accepts above `$`. -/
structure GoesThrough (t : Trace) (f : Forest) : Prop where
  accepted : t.status = .accepted
  actions : t.actions = .init :: f.actions ++ [.accept]
  bottom : t.lastStack? = some [Grammar.endOfInput]

end Trace

/-! ## Actions of forests -/

namespace Forest

variable {g : Grammar} {f : Forest}

theorem expanded_actions (f : Forest) : f.actions.filterMap Action.expanded? = f.rules := by
  induction f with
  | nil => rfl
  | leaf x rest ih => simpa [List.filterMap_cons, Action.expanded?] using ih
  | node x r below rest ihbelow ihrest => simp [Action.expanded?, ihbelow, ihrest]

theorem matched_actions (f : Forest) : f.actions.filterMap Action.matched? = f.yield := by
  induction f with
  | nil => rfl
  | leaf x rest ih => simp [Action.matched?, ih]
  | node x r below rest ihbelow ihrest =>
    simp [List.filterMap_cons, Action.matched?, ihbelow, ihrest]

theorem isRecovery_of_mem_actions {action : Action} (h : action ∈ f.actions) :
    action.isRecovery = false := by
  induction f with
  | nil => simp at h
  | leaf x rest ih =>
    rcases List.mem_cons.1 h with rfl | h
    · rfl
    · exact ih h
  | node x r below rest ihbelow ihrest =>
    rcases List.mem_cons.1 h with rfl | h
    · rfl
    · rcases List.mem_append.1 h with h | h
      · exact ihbelow h
      · exact ihrest h

end Forest

namespace Trace.GoesThrough

variable {t : Trace} {f f' : Forest} (h : t.GoesThrough f)
include h

theorem hasErrors : t.hasErrors = false := by
  rw [hasErrors_eq_actions, h.actions, List.any_eq_false]
  intro action hmem
  simp only [List.cons_append, List.mem_cons, List.mem_append, List.not_mem_nil, or_false] at hmem
  rcases hmem with rfl | hmem | rfl
  · simp [Action.isRecovery]
  · simp [Forest.isRecovery_of_mem_actions hmem]
  · simp [Action.isRecovery]

theorem matched : t.matched = f.yield := by
  rw [matched_eq_actions, h.actions]
  simp [List.filterMap_cons, Action.matched?, Forest.matched_actions]

theorem expansions : t.expansions = f.rules := by
  rw [Trace.expansions, h.actions]
  simp [List.filterMap_cons, Action.expanded?, Forest.expanded_actions]

theorem length_steps : t.steps.length = 2 + f.yield.length + f.rules.length := by
  have hlen : t.steps.length = t.actions.length := by simp [Trace.actions]
  rw [hlen, h.actions]
  simp [Forest.length_actions]
  omega

/-- A trace goes through one tree only. -/
theorem eq_of_isTree {g : Grammar} {x : Symbol} {w w' : List Symbol} (h' : t.GoesThrough f')
    (hf : f.IsTree g x w) (hf' : f'.IsTree g x w') : f = f' := by
  have hactions : f.actions ++ [.accept] = f'.actions ++ [.accept] := by
    simpa [h.actions] using h'.actions
  exact (Forest.eq_of_actions_append hf.valid hf'.valid (by rw [hf.roots, hf'.roots]) hactions).1

end Trace.GoesThrough

/-! ## Parsing selected trees -/

namespace Parser

variable {g : Grammar} {t : ParseTable} {f : Forest} {n : Nat}

/-- One action of a parser without step limit. -/
theorem Path.of_takes {m : Machine} {action : Action} (hstuck : m.stuck = false)
    (h : Takes ⟨g, t, .unlimited⟩ m action) :
    Path ⟨g, t, .unlimited⟩ n m [⟨m.config, action⟩] (apply ⟨g, t, .unlimited⟩ m action) := by
  have hnext : next ⟨g, t, .unlimited⟩ n m = action := next_of_takes rfl hstuck h
  have hgoes : action.outcome? = none := by cases h <;> rfl
  have hpath := Path.nil (p := ⟨g, t, .unlimited⟩) (n + 1) (apply ⟨g, t, .unlimited⟩ m action)
  subst hnext
  exact .cons hgoes hpath

/-- The parser goes through a forest that its table selects, and leaves what is below and behind
    it. -/
theorem exists_path_of_selected (hwf : g.WellFormed) (hf : f.Valid g)
    (hterm : ∀ x ∈ f.yield, g.isTerminal x = true ∧ x ≠ Grammar.endOfInput) (n : Nat)
    (stack input : List Symbol) (h : f.Selected t (input.headD Grammar.endOfInput)) :
    ∃ steps, Path ⟨g, t, .unlimited⟩ n ⟨⟨f.roots ++ stack, f.yield ++ input⟩, false⟩ steps
        ⟨⟨stack, input⟩, false⟩ ∧ steps.map Step.action = f.actions := by
  induction f generalizing n stack input with
  | nil => exact ⟨[], .nil _ _, rfl⟩
  | leaf x rest ih =>
    obtain ⟨hx, htrest⟩ := List.forall_mem_cons.1 hterm
    have htake : Takes ⟨g, t, .unlimited⟩
        ⟨⟨x :: (rest.roots ++ stack), x :: (rest.yield ++ input)⟩, false⟩ (.matchTop x) :=
      .matchTop hx.2 hx.1 rfl
    obtain ⟨steps, hpath, hactions⟩ :=
      ih hf htrest (n + 1) stack input h
    refine ⟨_, (Path.of_takes (n := n) rfl htake).append hpath, ?_⟩
    simp [hactions]
  | node x r below rest ihbelow ihrest =>
    obtain ⟨hrule, hbelow, hrest⟩ := hf
    obtain ⟨hcell, hsbelow, hsrest⟩ := h
    obtain ⟨htbelow, htrest⟩ := List.forall_mem_append.1 hterm
    have hx : g.isNonterminal x = true := hwf.nonterminal_of_rule? hrule
    have hlook : (below.yield ++ (rest.yield ++ input)).headD Grammar.endOfInput =
        below.yield.headD (rest.yield.headD (input.headD Grammar.endOfInput)) := by
      simp
    have hhead : (rest.yield ++ input).headD Grammar.endOfInput =
        rest.yield.headD (input.headD Grammar.endOfInput) := by
      simp
    have htake : Takes ⟨g, t, .unlimited⟩
        ⟨⟨x :: (rest.roots ++ stack), below.yield ++ (rest.yield ++ input)⟩, false⟩ (.expand r) :=
      takes_expand (hwf.ne_endOfInput hx) (hwf.not_terminal x hx) hx (by rw [hlook]; exact hcell)
        hrule
    obtain ⟨steps, hpath, hactions⟩ := ihbelow hbelow htbelow (n + 1)
      (rest.roots ++ stack) (rest.yield ++ input) (hhead ▸ hsbelow)
    obtain ⟨steps', hpath', hactions'⟩ := ihrest hrest htrest
      (n + 1 + steps.length) stack input hsrest
    have hexpand := Path.of_takes (n := n) rfl htake
    rw [apply_expand hrule] at hexpand
    have hall := hexpand.append (hpath.append hpath')
    rw [Forest.yield, List.append_assoc]
    exact ⟨_, hall, by simp [hactions, hactions']⟩

/-- The parser accepts the yield of a tree that its table selects. -/
theorem endsWith_of_selected (hwf : g.WellFormed) {w : List Symbol} (hf : f.IsTree g g.start w)
    (hterm : ∀ x ∈ w, g.isTerminal x = true ∧ x ≠ Grammar.endOfInput)
    (h : f.Selected t Grammar.endOfInput) :
    ∃ trace, EndsWith ⟨g, t, .unlimited⟩ w trace ∧ trace.GoesThrough f := by
  obtain ⟨hvalid, hroots, rfl⟩ := hf
  obtain ⟨steps, hpath, hactions⟩ := exists_path_of_selected hwf hvalid hterm 0
    [Grammar.endOfInput] [Grammar.endOfInput] h
  rw [hroots] at hpath
  have haccept : next ⟨g, t, .unlimited⟩ steps.length
      ⟨⟨[Grammar.endOfInput], [Grammar.endOfInput]⟩, false⟩ = .accept := by
    rw [next_eq_decide rfl rfl]
    simp [decide, Machine.top, Machine.lookahead]
  refine ⟨_, endsWith_iff.2 ⟨steps, _, .accepted, hpath, by rw [haccept]; rfl, rfl⟩, ?_⟩
  rw [haccept]
  refine ⟨rfl, ?_, ?_⟩
  · simp [Trace.actions, hactions]
  · exact Trace.lastStack?_concat _ _ _

/-- Without conflicts, and with FOLLOW sets that satisfy the textbook equations, the parser goes
    through every derivation tree of a string of terminals from its top and from its left, in as
    many steps as the tree has leaves and rules, and two more. So there is only one tree. -/
theorem accepts_of_closed {g : Grammar} (hbuilt : g.Built) {follow : FollowSets}
    (hclosed : follow.Closed g (.ofGrammar g))
    (hfree : (ParseTable.withSets g (.ofGrammar g) follow).overwritten = 0) {w : List Symbol}
    (hterm : ∀ x ∈ w, g.isTerminal x = true ∧ x ≠ Grammar.endOfInput) {f : Forest}
    (hf : f.IsTree g g.start w) :
    (∃ t, EndsWith ⟨g, .withSets g (.ofGrammar g) follow, .unlimited⟩ w t ∧
      t.status = .accepted ∧ t.hasErrors = false ∧ t.matched = w ∧ t.expansions = f.rules ∧
      g.DerivesLeftmostBy [g.start] f.rules w ∧
      t.steps.length = 2 + w.length + f.rules.length) ∧
    ∀ f' : Forest, f'.IsTree g g.start w → f' = f := by
  have hwf := hbuilt.wellFormed
  have hselected : ∀ f : Forest, f.IsTree g g.start w →
      f.Selected (.withSets g (.ofGrammar g) follow) Grammar.endOfInput := by
    intro f hf
    refine Forest.Followed.selected hwf hfree hf.valid (hf.terminal hterm) ?_
    refine hclosed.followed hwf hf.valid (hf.terminal hterm) ?_
    rw [hf.roots]
    exact hclosed.admits_start
  obtain ⟨t, hends, hthrough⟩ := endsWith_of_selected hwf hf hterm (hselected f hf)
  refine ⟨?_, ?_⟩
  · refine ⟨t, hends, hthrough.accepted, hthrough.hasErrors, ?_, hthrough.expansions, ?_, ?_⟩
    · rw [hthrough.matched, hf.yield]
    · have hderives := hf.valid.derivesLeftmostBy (hf.terminal hterm) [] (by simp) []
      simpa [hf.roots, hf.yield] using hderives
    · rw [hthrough.length_steps, hf.yield]
  · intro f' hf'
    obtain ⟨t', hends', hthrough'⟩ := endsWith_of_selected hwf hf' hterm (hselected f' hf')
    rw [← hends.eq hends'] at hthrough'
    exact hthrough'.eq_of_isTree hthrough hf' hf

/-- The FOLLOW sets of `Grammar.nested` satisfy the textbook equations. -/
theorem closed_nested :
    (FollowSets.ofGrammar .nested (.ofGrammar .nested)).Closed .nested (.ofGrammar .nested) := by
  decide +kernel

/-- The tree of `a b`. -/
def nestedTree : Forest :=
  .node ⟨1⟩ ⟨0⟩ (.leaf ⟨2⟩ (.node ⟨1⟩ ⟨1⟩ .nil (.leaf ⟨3⟩ .nil))) .nil

theorem accepts_nested :
    (∃ t, EndsWith ⟨.nested, .ofGrammar .nested, .unlimited⟩ [⟨2⟩, ⟨3⟩] t ∧
      t.status = .accepted ∧ t.hasErrors = false ∧ t.matched = [⟨2⟩, ⟨3⟩] ∧
      t.expansions = [⟨0⟩, ⟨1⟩] ∧
      Grammar.nested.DerivesLeftmostBy [⟨1⟩] [⟨0⟩, ⟨1⟩] [⟨2⟩, ⟨3⟩] ∧ t.steps.length = 6) ∧
    ∀ f' : Forest, f'.IsTree .nested Grammar.nested.start [⟨2⟩, ⟨3⟩] → f' = nestedTree :=
  accepts_of_closed Grammar.built_nested closed_nested (by decide +kernel) (by decide +kernel)
    (f := nestedTree) (by decide +kernel)

end Parser

end Predictive
