-- SUMMARY: Without conflicts and left recursion every run of the parser comes to an end.
import Mathlib.Data.Set.Finite.List
import Predictive.Proofs.Derivation.Forest
import Predictive.Proofs.Lookahead.First
import Predictive.Proofs.Parse.Run
import Predictive.Proofs.ParseTable.Conflicts

/-!
# Termination

A step that reads or discards input makes the input shorter, so only runs of expansions and
extractions with one lookahead have to be bounded. A symbol that begins with the lookahead is never
dropped: the parser goes from it to its left corners, until one of them is the lookahead itself. Any
other symbol is dropped, or expanded by a rule whose symbols are left corners of it up to the first
one that begins with the lookahead. In both cases the symbols that come to the top are left corners,
and without left recursion there is no way back.

Nothing is asked of the FOLLOW sets, which need not be those of the grammar.
-/

namespace Predictive

/-! ## Left corners -/

namespace Grammar

/-- A rule of `a` has the symbol `x` with nothing but nullable symbols before it. -/
def LeftCorner (g : Grammar) (a x : Symbol) : Prop :=
  ∃ rule ∈ g.rules, rule.lhs = a ∧
    ∃ before after, rule.rhs = before ++ x :: after ∧ ∀ y ∈ before, g.Nullable y

/-- No nonterminal is a left corner of a left corner … of itself. -/
def NoLeftRecursion (g : Grammar) : Prop :=
  ∀ a, g.isNonterminal a = true → ¬ Relation.TransGen g.LeftCorner a a

variable {g : Grammar}

theorem WellFormed.nonterminal_of_leftCorner (hwf : g.WellFormed) {a x : Symbol}
    (h : g.LeftCorner a x) : g.isNonterminal a = true := by
  obtain ⟨rule, hrule, rfl, -⟩ := h
  exact hwf.nonterminal_lhs rule hrule

/-- The nonterminal `x` is a left corner of a left corner … of `a`. -/
def Reached (g : Grammar) (x a : {a // a ∈ g.nonterminals}) : Prop :=
  Relation.TransGen g.LeftCorner a.1 x.1

/-- There are finitely many nonterminals, so without left recursion no chain of them is endless. -/
theorem NoLeftRecursion.wellFounded_reached (hwf : g.WellFormed) (h : g.NoLeftRecursion) :
    WellFounded g.Reached := by
  have : Finite {a // a ∈ g.nonterminals} := g.nonterminals.finite_toSet
  have : IsTrans _ g.Reached := ⟨fun _ _ _ hxy hyz => hyz.trans hxy⟩
  have : Std.Irrefl g.Reached := ⟨fun a => h a.1 ((hwf.mem_nonterminals _).1 a.2)⟩
  exact Finite.wellFounded_of_trans_of_irrefl g.Reached

/-- Left corners of left corners do not go on forever. -/
theorem NoLeftRecursion.acc (hwf : g.WellFormed) (h : g.NoLeftRecursion) (x : Symbol) :
    Acc (fun x a => g.LeftCorner a x) x := by
  have hend : ∀ x, g.isNonterminal x = false → Acc (fun x a => g.LeftCorner a x) x := by
    refine fun x hx => ⟨x, fun y hy => ?_⟩
    simp [hwf.nonterminal_of_leftCorner hy] at hx
  have hnonterm : ∀ a : {a // a ∈ g.nonterminals}, Acc (fun x a => g.LeftCorner a x) a.1 := by
    intro a
    induction a using (h.wellFounded_reached hwf).induction with
    | _ a ih =>
      refine ⟨a.1, fun y hy => ?_⟩
      cases hy' : g.isNonterminal y with
      | false => exact hend y hy'
      | true => exact ih ⟨y, (hwf.mem_nonterminals y).2 hy'⟩ (Relation.TransGen.single hy)
  cases hx : g.isNonterminal x with
  | false => exact hend x hx
  | true => exact hnonterm ⟨x, (hwf.mem_nonterminals x).2 hx⟩

end Grammar

namespace Parser

/-! ## Halting -/

/-- From this machine on the run comes to an end, if no step limit ends it before. -/
inductive Halts (p : Parser) : Machine → Prop where
  | stops {m : Machine} {status : RunStatus} (stops : (p.next 0 m).outcome? = some status) :
    Halts p m
  | goes {m : Machine} (goes : (p.next 0 m).outcome? = none)
    (rest : Halts p (p.apply m (p.next 0 m))) : Halts p m

variable {g : Grammar} {t : ParseTable} {m : Machine}

theorem Halts.of_takes {p : Parser}
    (h : ∀ action, p.Takes m action → p.Halts (p.apply m action)) : p.Halts m := by
  cases hout : (p.next 0 m).outcome? with
  | some status => exact .stops hout
  | none => exact .goes hout (h _ (takes_of_goes hout).2)

theorem Halts.after {action : Action} (hstuck : m.stuck = false)
    (htakes : Takes ⟨g, t, .unlimited⟩ m action)
    (h : Halts ⟨g, t, .unlimited⟩ (apply ⟨g, t, .unlimited⟩ m action)) :
    Halts ⟨g, t, .unlimited⟩ m := by
  have hnext : next ⟨g, t, .unlimited⟩ 0 m = action := next_of_takes rfl hstuck htakes
  have hgoes : action.outcome? = none := by cases htakes <;> rfl
  subst hnext
  exact .goes hgoes h

/-- An error at the end of input ends the run. -/
theorem Halts.of_stuck (hstuck : m.stuck = true) : Halts ⟨g, t, .unlimited⟩ m := by
  have hstops : (next ⟨g, t, .unlimited⟩ 0 m).outcome? = some (.rejected .inputExhausted) := by
    simp [next, RunOptions.exhausted, RunOptions.unlimited, hstuck, Action.outcome?]
  exact .stops hstops

theorem Halts.exists_path (h : Halts ⟨g, t, .unlimited⟩ m) (n : Nat) :
    ∃ steps m' status, Path ⟨g, t, .unlimited⟩ n m steps m' ∧
      (next ⟨g, t, .unlimited⟩ (n + steps.length) m').outcome? = some status := by
  induction h generalizing n with
  | @stops m status stops => exact ⟨[], m, status, .nil n m, stops⟩
  | @goes m goes _ ih =>
    obtain ⟨steps, m', status, hpath, hstops⟩ := ih (n + 1)
    exact ⟨_, m', status, .cons goes hpath, hstops⟩

/-- A run without step limit does not end because of one. -/
theorem outcome_unlimited {n : Nat} {status : RunStatus}
    (h : (next ⟨g, t, .unlimited⟩ n m).outcome? = some status) :
    status = .accepted ∨ ∃ why, why ≠ .stepLimit ∧ status = .rejected why := by
  cases haction : next ⟨g, t, .unlimited⟩ n m with
  | accept => exact .inl (by simpa [haction, Action.outcome?] using h.symm)
  | reject why =>
    refine .inr ⟨why, ?_, by simpa [haction, Action.outcome?] using h.symm⟩
    rintro rfl
    simp only [next, RunOptions.exhausted, RunOptions.unlimited, Bool.false_eq_true,
      if_false] at haction
    split at haction
    · cases haction
    · exact decide_ne_stepLimit _ _ _ haction
  | init => simp [haction, Action.outcome?] at h
  | matchTop => simp [haction, Action.outcome?] at h
  | mismatch => simp [haction, Action.outcome?] at h
  | expand => simp [haction, Action.outcome?] at h
  | extract => simp [haction, Action.outcome?] at h
  | explore => simp [haction, Action.outcome?] at h

/-! ## One lookahead -/

section Lookahead

variable {input : List Symbol}
  (ih : ∀ stack input', input'.length < input.length →
    Halts ⟨g, t, .unlimited⟩ ⟨⟨stack, input'⟩, false⟩)
include ih

/-- After a discarded symbol the input is shorter, or the machine is stuck. -/
theorem Halts.discard (stack : List Symbol) :
    Halts ⟨g, t, .unlimited⟩ (Machine.discard ⟨⟨stack, input⟩, false⟩) := by
  unfold Machine.discard
  split
  · exact .of_stuck rfl
  · next hlook => exact ih stack input.tail (Machine.length_tail_input_lt hlook)

/-- A symbol without rules is matched, or an error. -/
theorem Halts.of_not_nonterminal {x : Symbol} (hx : g.isNonterminal x = false)
    (stack : List Symbol) : Halts ⟨g, t, .unlimited⟩ ⟨⟨x :: stack, input⟩, false⟩ := by
  refine .of_takes fun action htakes => ?_
  cases htakes with
  | matchTop above terminal agree =>
    exact ih stack input.tail (Machine.length_tail_input_lt (agree ▸ above))
  | mismatch => exact .discard ih (x :: stack)
  | expand above notTerminal nonterminal => simp [Machine.top, hx] at nonterminal
  | extract above notTerminal nonterminal => simp [Machine.top, hx] at nonterminal
  | explore above notTerminal nonterminal => simp [Machine.top, hx] at nonterminal

end Lookahead

/-- With this input the run comes to an end when the symbol is on top of the stack: in any case if
    the symbol begins with the lookahead, and otherwise if the run ends without the symbol. -/
structure Passes (g : Grammar) (first : FirstSets) (t : ParseTable) (input : List Symbol)
    (x : Symbol) : Prop where
  reads : first.Begins x (input.headD Grammar.endOfInput) →
    ∀ stack, Halts ⟨g, t, .unlimited⟩ ⟨⟨x :: stack, input⟩, false⟩
  leaves : ∀ stack, Halts ⟨g, t, .unlimited⟩ ⟨⟨stack, input⟩, false⟩ →
    Halts ⟨g, t, .unlimited⟩ ⟨⟨x :: stack, input⟩, false⟩

section Strings

variable {first : FirstSets} {input xs stack : List Symbol}

theorem Passes.leaves_all (hpass : ∀ y ∈ xs, Passes g first t input y)
    (hstack : Halts ⟨g, t, .unlimited⟩ ⟨⟨stack, input⟩, false⟩) :
    Halts ⟨g, t, .unlimited⟩ ⟨⟨xs ++ stack, input⟩, false⟩ := by
  induction xs with
  | nil => exact hstack
  | cons y ys ih =>
    exact (hpass y (by simp)).leaves _ (ih fun z hz => hpass z (by simp [hz]))

/-- The parser never gets past the symbol of a string that begins with the lookahead. -/
theorem Passes.reads_first
    (hmem : input.headD Grammar.endOfInput ∈ (first.ofString xs).terminals)
    (hpass : ∀ before y after, xs = before ++ y :: after → (∀ z ∈ before, first.Erases z) →
      Passes g first t input y) :
    Halts ⟨g, t, .unlimited⟩ ⟨⟨xs ++ stack, input⟩, false⟩ := by
  induction xs with
  | nil => exact absurd hmem FirstSets.mem_ofString_nil
  | cons y ys ih =>
    have hy : Passes g first t input y := hpass [] y ys rfl (by simp)
    rcases FirstSets.mem_ofString_cons.1 hmem with hbegins | ⟨herases, hmem⟩
    · exact hy.reads hbegins _
    · refine hy.leaves _ (ih hmem fun before z after hys hbefore => ?_)
      refine hpass (y :: before) z after (by rw [hys]; rfl) ?_
      exact List.forall_mem_cons.2 ⟨herases, hbefore⟩

end Strings

/-! ## Nonterminals -/

section Nonterminals

variable {follow : FollowSets} {input : List Symbol} (hwf : g.WellFormed)
include hwf

/-- The run comes to an end after an expansion. If the right-hand side does not begin with the
    lookahead, it erases, so that all of its symbols are left corners. -/
theorem Passes.expand {rule : Rule} {stack : List Symbol} (hrule : rule ∈ g.rules)
    (hpass : ∀ y, g.LeftCorner rule.lhs y → Passes g (.ofGrammar g) t input y)
    (hselect : input.headD Grammar.endOfInput ∈
        ((FirstSets.ofGrammar g).ofString rule.rhs).terminals ∨
      ((FirstSets.ofGrammar g).ofString rule.rhs).hasEmpty = true ∧
        Halts ⟨g, t, .unlimited⟩ ⟨⟨stack, input⟩, false⟩) :
    Halts ⟨g, t, .unlimited⟩ ⟨⟨rule.rhs ++ stack, input⟩, false⟩ := by
  have hcorner : ∀ before y after, rule.rhs = before ++ y :: after →
      (∀ z ∈ before, (FirstSets.ofGrammar g).Erases z) → Passes g (.ofGrammar g) t input y := by
    intro before y after hrhs hbefore
    have hnullable : ∀ z ∈ before, g.Nullable z :=
      fun z hz => (FirstSets.sound_ofGrammar hwf).nullable_of_erases (hbefore z hz)
    exact hpass y ⟨rule, hrule, rfl, before, after, hrhs, hnullable⟩
  rcases hselect with hmem | ⟨hempty, hstack⟩
  · exact Passes.reads_first hmem hcorner
  · have hall : ∀ y ∈ rule.rhs, Passes g (.ofGrammar g) t input y := by
      intro y hy
      obtain ⟨before, after, hrhs⟩ := List.append_of_mem hy
      refine hcorner before y after hrhs fun z hz => ?_
      exact FirstSets.hasEmpty_ofString_iff.1 hempty z (by simp [hrhs, hz])
    exact Passes.leaves_all hall hstack

variable (hfree : (ParseTable.withSets g (.ofGrammar g) follow).overwritten = 0)
include hfree

/-- A nonterminal that begins with the lookahead has a rule in its cell that does so, too. -/
theorem exists_rule_of_has {x y : Symbol} (hx : g.isNonterminal x = true)
    (h : (FirstSets.ofGrammar g).sets.Has x y) :
    ∃ r rule, (ParseTable.withSets g (.ofGrammar g) follow).get? x y = some (.rule r) ∧
      g.rule? r = some rule ∧ rule.lhs = x ∧
      y ∈ ((FirstSets.ofGrammar g).ofString rule.rhs).terminals := by
  obtain ⟨rule, hrule, hlhs, hmem⟩ := (FirstSets.sound_ofGrammar hwf).supported x y hx h
  obtain ⟨r, hr⟩ := Grammar.exists_rule?_of_mem hrule
  have hcell := ParseTable.get?_of_claims hfree ⟨rule, hr, hlhs, .inl hmem⟩
  exact ⟨r, rule, hcell, hr, hlhs, hmem⟩

variable (ih : ∀ stack input', input'.length < input.length →
    Halts ⟨g, .withSets g (.ofGrammar g) follow, .unlimited⟩ ⟨⟨stack, input'⟩, false⟩)
include ih

/-- A symbol whose left corners are passed is passed. -/
theorem Passes.of_leftCorners {x : Symbol} (hpass : ∀ y, g.LeftCorner x y →
      Passes g (.ofGrammar g) (.withSets g (.ofGrammar g) follow) input y) :
    Passes g (.ofGrammar g) (.withSets g (.ofGrammar g) follow) input x := by
  cases hx : g.isNonterminal x with
  | false =>
    have hhalts := Halts.of_not_nonterminal ih hx
    exact ⟨fun _ stack => hhalts stack, fun stack _ => hhalts stack⟩
  | true =>
    have hterm : g.isTerminal x = false := hwf.not_terminal x hx
    refine ⟨?_, ?_⟩
    · intro hbegins stack
      have hset : (FirstSets.ofGrammar g).terminalSet.contains x = false := by
        rw [(FirstSets.sound_ofGrammar hwf).terminalSet]
        exact hterm
      rw [FirstSets.Begins, if_neg (by simp [hset])] at hbegins
      obtain ⟨r, rule, hcell, hrule, rfl, hmem⟩ := exists_rule_of_has hwf hfree hx hbegins
      refine .after rfl (takes_expand (hwf.ne_endOfInput hx) hterm hx hcell hrule) ?_
      rw [apply_expand hrule]
      exact Passes.expand hwf (Grammar.mem_rules_of_rule? hrule) hpass (.inl hmem)
    · intro stack hstack
      refine .of_takes fun action htakes => ?_
      cases htakes with
      | matchTop above terminal => simp [Machine.top, hterm] at terminal
      | mismatch above terminal => simp [Machine.top, hterm] at terminal
      | @expand _ _ _ r _ cell known =>
        obtain ⟨rule, hrule, hlhs, hclaim⟩ := ParseTable.claims_of_get? cell
        rw [apply_expand hrule]
        refine Passes.expand hwf (Grammar.mem_rules_of_rule? hrule) (hlhs ▸ hpass) ?_
        rcases hclaim with hmem | ⟨hempty, -⟩
        · exact .inl hmem
        · exact .inr ⟨hempty, hstack⟩
      | extract => exact hstack
      | explore => exact .discard ih (x :: stack)

end Nonterminals

/-! ## Whole runs -/

/-- Without conflicts and left recursion the parser halts from every stack and input. -/
theorem halts_of_noLeftRecursion {follow : FollowSets} (hwf : g.WellFormed)
    (hfree : (ParseTable.withSets g (.ofGrammar g) follow).overwritten = 0)
    (hleft : g.NoLeftRecursion) (stack input : List Symbol) :
    Halts ⟨g, .withSets g (.ofGrammar g) follow, .unlimited⟩ ⟨⟨stack, input⟩, false⟩ := by
  induction hlen : input.length using Nat.strongRecOn generalizing stack input with
  | _ n ih =>
    have hshorter : ∀ stack input', input'.length < input.length →
        Halts ⟨g, .withSets g (.ofGrammar g) follow, .unlimited⟩ ⟨⟨stack, input'⟩, false⟩ :=
      fun stack input' hlt => ih input'.length (hlen ▸ hlt) stack input' rfl
    have hpass : ∀ x, Passes g (.ofGrammar g) (.withSets g (.ofGrammar g) follow) input x := by
      intro x
      induction hleft.acc hwf x with
      | intro x _ ihx => exact .of_leftCorners hwf hfree hshorter ihx
    induction stack with
    | nil =>
      refine .of_takes fun action htakes => ?_
      cases htakes <;> contradiction
    | cons x stack ihstack => exact (hpass x).leaves stack ihstack

/-- Without conflicts and left recursion every run of a parser without step limit comes to an end,
    whatever symbols its input has. It accepts, or rejects for another reason than the limit. -/
theorem ends_of_noLeftRecursion {g : Grammar} (hbuilt : g.Built)
    (hfree : (ParseTable.ofGrammar g).overwritten = 0) (hleft : g.NoLeftRecursion)
    (tokens : List Symbol) :
    ∃ t, EndsWith (.ofGrammar g .unlimited) tokens t ∧
      (t.status = .accepted ∨ ∃ why, why ≠ .stepLimit ∧ t.status = .rejected why) := by
  have hhalts := halts_of_noLeftRecursion hbuilt.wellFormed hfree hleft
    [g.start, Grammar.endOfInput] (tokens ++ [Grammar.endOfInput])
  obtain ⟨steps, m', status, hpath, hstops⟩ := hhalts.exists_path 0
  rw [Nat.zero_add] at hstops
  exact ⟨_, endsWith_iff.2 ⟨steps, m', status, hpath, hstops, rfl⟩, outcome_unlimited hstops⟩

theorem noLeftRecursion_nested : Grammar.nested.NoLeftRecursion := by
  have hwf := Grammar.built_nested.wellFormed
  have hterm : Grammar.nested.isTerminal ⟨2⟩ = true := by decide +kernel
  have ha : Grammar.nested.isNonterminal ⟨2⟩ = false := by decide +kernel
  -- The only left corner is `a`, since nothing behind it can be reached without it.
  have hcorner : ∀ a x, Grammar.nested.LeftCorner a x → x = ⟨2⟩ := by
    rintro a x ⟨rule, hrule, -, before, after, hrhs, hnull⟩
    rcases Grammar.mem_rules_nested.1 hrule with rfl | rfl
    · cases before with
      | nil => simpa using (congrArg List.head? hrhs).symm
      | cons y before =>
        obtain rfl : ⟨2⟩ = y := by simpa using congrArg List.head? hrhs
        exact absurd (hnull _ (by simp)) (Forest.not_nullable_of_terminal hwf hterm)
    · simp at hrhs
  intro a hnonterm hcycle
  obtain ⟨b, -, hlast⟩ := Relation.TransGen.tail'_iff.1 hcycle
  obtain rfl := hcorner b a hlast
  simp [ha] at hnonterm

/-- The input holds an unmatched `b`, the end of input, a nonterminal and a symbol that is none of
    the grammar. -/
theorem ends_nested :
    ∃ t, EndsWith (.ofGrammar .nested .unlimited) [⟨3⟩, ⟨0⟩, ⟨1⟩, ⟨9⟩] t ∧
      (t.status = .accepted ∨ ∃ why, why ≠ .stepLimit ∧ t.status = .rejected why) :=
  ends_of_noLeftRecursion Grammar.built_nested (by decide +kernel) noLeftRecursion_nested _

end Parser

end Predictive
