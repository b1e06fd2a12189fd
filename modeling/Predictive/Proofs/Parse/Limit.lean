-- SUMMARY: A step limit cuts a run off: what comes before the cut is as it is without the limit.
import Predictive.Proofs.Grammar.Built
import Predictive.Proofs.Parse.Run

/-!
# Step limits

A run with a step limit is the run without one, unless this takes more steps than the limit allows.
In that case the first step that is one too many is refused, in the configuration in which it would
have been taken, even if it would have ended the run. So a run that is not stopped by its limit is
the same with every larger limit, and without any.
-/

namespace Predictive

/-- The trace as it is when step number `n` is refused. A trace without such a step stays as it
    is. -/
def Trace.refusedAt (n : Nat) (t : Trace) : Trace :=
  match t.steps[n]? with
  | none => t
  | some s => ⟨t.steps.take n ++ [⟨s.config, .reject .stepLimit⟩], .rejected .stepLimit⟩

namespace Trace

variable {t : Trace} {n : Nat}

theorem refusedAt_of_le (h : t.steps.length ≤ n) : t.refusedAt n = t := by
  simp [refusedAt, h]

theorem refusedAt_of_getElem? {s : Step} (h : t.steps[n]? = some s) :
    t.refusedAt n =
      ⟨t.steps.take n ++ [⟨s.config, .reject .stepLimit⟩], .rejected .stepLimit⟩ := by
  simp [refusedAt, h]

theorem refusedAt_prepend (s : Step) (t : Trace) (n : Nat) :
    (t.prepend s).refusedAt (n + 1) = (t.refusedAt n).prepend s := by
  unfold refusedAt prepend
  rw [List.getElem?_cons_succ]
  cases t.steps[n]? with
  | none => rfl
  | some s' => rfl

end Trace

namespace Parser

/-! ## Runs with little fuel -/

section Fuel

variable {p : Parser} {n : Nat} {m : Machine}

/-- A run that is not over has used up its fuel. -/
theorem length_steps_run {fuel : Nat} (h : (p.run fuel n m).status = .running) :
    (p.run fuel n m).steps.length = fuel := by
  induction fuel generalizing n m with
  | zero => rfl
  | succ fuel ih =>
    cases hout : (p.next n m).outcome? with
    | none =>
      rw [run_of_goes fuel hout] at h ⊢
      exact congrArg (· + 1) (ih h)
    | some status =>
      rw [run_of_stops fuel hout] at h
      obtain rfl : status = .running := h
      cases haction : p.next n m <;> simp [haction, Action.outcome?] at hout

/-- Every step of a run is there with more fuel, too. -/
theorem prefix_steps_run (fuel more : Nat) (n : Nat) (m : Machine) :
    (p.run fuel n m).steps <+: (p.run (fuel + more) n m).steps := by
  induction fuel generalizing n m with
  | zero => exact List.nil_prefix
  | succ fuel ih =>
    rw [Nat.add_right_comm]
    cases hout : (p.next n m).outcome? with
    | none =>
      rw [run_of_goes fuel hout, run_of_goes (fuel + more) hout]
      exact (List.prefix_cons_inj _).2 (ih _ _)
    | some status =>
      have hsame : p.run (fuel + 1) n m = p.run (fuel + more + 1) n m :=
        (run_of_stops fuel hout).trans (run_of_stops (fuel + more) hout).symm
      exact hsame ▸ List.prefix_rfl

theorem exists_steps_run_eq_cons (fuel n : Nat) (m : Machine) :
    ∃ rest, (p.run (fuel + 1) n m).steps = ⟨m.config, p.next n m⟩ :: rest := by
  cases hout : (p.next n m).outcome? with
  | none => exact ⟨_, congrArg Trace.steps (run_of_goes fuel hout)⟩
  | some status => exact ⟨[], congrArg Trace.steps (run_of_stops fuel hout)⟩

end Fuel

/-! ## The cut -/

section Limit

variable {g : Grammar} {t : ParseTable} {tokens : List Symbol} {k n fuel : Nat} {m : Machine}

theorem next_of_lt (h : n < k) : next ⟨g, t, ⟨some k⟩⟩ n m = next ⟨g, t, .unlimited⟩ n m := by
  have hlimit : RunOptions.exhausted ⟨some k⟩ n = false := by simp [RunOptions.exhausted, h]
  simp only [next, hlimit]
  rfl

/-- A machine that took `n` steps takes the steps up to the limit, and the next one is refused. -/
theorem run_limited (hn : n ≤ k) (hfuel : k < n + fuel) :
    run ⟨g, t, ⟨some k⟩⟩ fuel n m = (run ⟨g, t, .unlimited⟩ fuel n m).refusedAt (k - n) := by
  induction fuel generalizing n m with
  | zero => omega
  | succ fuel ih =>
    rcases Nat.eq_or_lt_of_le hn with rfl | hlt
    · have hnext : next ⟨g, t, ⟨some n⟩⟩ n m = .reject .stepLimit := by
        simp [next, RunOptions.exhausted]
      obtain ⟨rest, hrest⟩ := exists_steps_run_eq_cons (p := ⟨g, t, .unlimited⟩) fuel n m
      rw [Nat.sub_self, Trace.refusedAt_of_getElem? (by rw [hrest]; rfl)]
      rw [run_of_stops fuel (by rw [hnext]; rfl), hnext]
      rfl
    · have hnext := next_of_lt (g := g) (t := t) (m := m) hlt
      cases hout : (next ⟨g, t, .unlimited⟩ n m).outcome? with
      | none =>
        rw [run_of_goes fuel hout, run_of_goes fuel (hnext ▸ hout), ih hlt (by omega), hnext]
        rw [← Trace.refusedAt_prepend, ← Nat.sub_add_comm hlt, Nat.add_sub_add_right]
        rfl
      | some status =>
        rw [run_of_stops fuel hout, run_of_stops fuel (hnext ▸ hout), hnext]
        rw [Trace.refusedAt_of_le (Nat.sub_pos_of_lt hlt)]

/-- Whatever fuel the run without a limit has, if only it has more than the limit allows steps, the
    run with the limit is this one with one step refused. -/
theorem parse_eq_refusedAt (hfuel : k < fuel) :
    parse ⟨g, t, ⟨some k⟩⟩ tokens =
      (parseWithin ⟨g, t, .unlimited⟩ fuel tokens).refusedAt (k + 1) := by
  have hends := endsWith_parse (p := ⟨g, t, ⟨some k⟩⟩) rfl tokens
  have hlimited : parseWithin ⟨g, t, ⟨some k⟩⟩ fuel tokens =
      (parseWithin ⟨g, t, .unlimited⟩ fuel tokens).refusedAt (k + 1) := by
    rw [parseWithin, parseWithin, Trace.refusedAt_prepend,
      run_limited (Nat.zero_le k) (by omega)]
    rfl
  refine hends.eq ⟨?_, fuel, hlimited⟩
  rw [← hlimited]
  exact run_ne_running (p := ⟨g, t, ⟨some k⟩⟩) rfl (Nat.zero_le k) (by omega)

/-- Without a limit, fuel for one step more than a run may have is enough to see if it has more. -/
theorem lt_length_steps_parseWithin {p : Parser}
    (h : ∀ tr, p.EndsWith tokens tr → k + 1 < tr.steps.length) :
    k + 1 < (p.parseWithin (k + 1) tokens).steps.length := by
  by_cases hstatus : (p.parseWithin (k + 1) tokens).status = .running
  · have hlen : (p.parseWithin (k + 1) tokens).steps.length = k + 1 + 1 :=
      congrArg (· + 1) (length_steps_run hstatus)
    omega
  · exact h _ ⟨hstatus, k + 1, rfl⟩

theorem prefix_steps_parseWithin (p : Parser) (tokens : List Symbol) (h : k ≤ fuel) :
    (p.parseWithin k tokens).steps <+: (p.parseWithin fuel tokens).steps := by
  obtain ⟨more, rfl⟩ := Nat.exists_eq_add_of_le h
  exact (List.prefix_cons_inj _).2 (prefix_steps_run k more 0 _)

/-- A run that ends within the limit is not cut. -/
theorem EndsWith.parse_limited {tr : Trace} (h : EndsWith ⟨g, t, .unlimited⟩ tokens tr)
    (hlen : tr.steps.length ≤ k + 1) : parse ⟨g, t, ⟨some k⟩⟩ tokens = tr := by
  rw [parse_eq_refusedAt (Nat.lt_succ_self k), h.parseWithin_eq (by omega),
    Trace.refusedAt_of_le hlen]

/-- A run that is not stopped by its limit ends without it. -/
theorem endsWith_of_status_ne (h : (parse ⟨g, t, ⟨some k⟩⟩ tokens).status ≠ .rejected .stepLimit) :
    EndsWith ⟨g, t, .unlimited⟩ tokens (parse ⟨g, t, ⟨some k⟩⟩ tokens) ∧
      (parse ⟨g, t, ⟨some k⟩⟩ tokens).steps.length ≤ k + 1 := by
  have hcut : parse ⟨g, t, ⟨some k⟩⟩ tokens =
      (parseWithin ⟨g, t, .unlimited⟩ (k + 1) tokens).refusedAt (k + 1) :=
    parse_eq_refusedAt (Nat.lt_succ_self k)
  rcases Nat.lt_or_ge (k + 1) (parseWithin ⟨g, t, .unlimited⟩ (k + 1) tokens).steps.length
    with hlong | hshort
  · rw [hcut, Trace.refusedAt_of_getElem? (List.getElem?_eq_getElem hlong)] at h
    exact absurd rfl h
  · rw [Trace.refusedAt_of_le hshort] at hcut
    rw [hcut]
    refine ⟨⟨fun hstatus => ?_, k + 1, rfl⟩, hshort⟩
    have hlen : (parseWithin ⟨g, t, .unlimited⟩ (k + 1) tokens).steps.length = k + 1 + 1 :=
      congrArg (· + 1) (length_steps_run hstatus)
    omega

/-- The step limit only cuts. A run that ends within the limit is the same without it. Of a longer
    run the steps up to the limit are recorded, and then the next one is refused in the
    configuration that it has in every long enough record of the run without a limit. So a run that
    the limit does not stop is the same with every larger limit and with none. -/
theorem limit_cuts (g : Grammar) (t : ParseTable) (tokens : List Symbol) (k : Nat) :
    (∀ tr, EndsWith ⟨g, t, .unlimited⟩ tokens tr → tr.steps.length ≤ k + 1 →
      parse ⟨g, t, ⟨some k⟩⟩ tokens = tr) ∧
    ((∀ tr, EndsWith ⟨g, t, .unlimited⟩ tokens tr → k + 1 < tr.steps.length) →
      ∃ past s, past.length = k + 1 ∧
        (∀ fuel, k < fuel →
          past ++ [s] <+: (parseWithin ⟨g, t, .unlimited⟩ fuel tokens).steps) ∧
        parse ⟨g, t, ⟨some k⟩⟩ tokens =
          ⟨past ++ [⟨s.config, .reject .stepLimit⟩], .rejected .stepLimit⟩) ∧
    ((parse ⟨g, t, ⟨some k⟩⟩ tokens).status ≠ .rejected .stepLimit →
      EndsWith ⟨g, t, .unlimited⟩ tokens (parse ⟨g, t, ⟨some k⟩⟩ tokens) ∧
      (k ≤ RunOptions.patience →
        parse ⟨g, t, .unlimited⟩ tokens = parse ⟨g, t, ⟨some k⟩⟩ tokens) ∧
      ∀ k', k ≤ k' →
        parse ⟨g, t, ⟨some k'⟩⟩ tokens = parse ⟨g, t, ⟨some k⟩⟩ tokens) := by
  refine ⟨fun tr hends hlen => hends.parse_limited hlen, fun hlong => ?_, fun hstatus => ?_⟩
  · have hlt := lt_length_steps_parseWithin hlong
    obtain ⟨s, hstep⟩ : ∃ s,
        (parseWithin ⟨g, t, .unlimited⟩ (k + 1) tokens).steps[k + 1]? = some s :=
      ⟨_, List.getElem?_eq_getElem hlt⟩
    refine ⟨_, s, List.length_take_of_le (Nat.le_of_lt hlt), fun fuel hfuel => ?_, ?_⟩
    · have htake := List.take_prefix (k + 2)
        (parseWithin ⟨g, t, .unlimited⟩ (k + 1) tokens).steps
      rw [List.take_add_one, hstep] at htake
      exact htake.trans (prefix_steps_parseWithin _ tokens hfuel)
    · rw [parse_eq_refusedAt (Nat.lt_succ_self k), Trace.refusedAt_of_getElem? hstep]
  · obtain ⟨hends, hlen⟩ := endsWith_of_status_ne hstatus
    refine ⟨hends, fun hk => ?_, fun k' hk' => hends.parse_limited (by omega)⟩
    rcases hends.parse_eq with heq | ⟨-, hpatience⟩
    · exact heq
    · omega

/-- The run on `a b` takes five steps after the initial one. With room for four it is stopped
    before it accepts. -/
theorem limit_cuts_nested :
    let tr := parse ⟨.nested, .ofGrammar .nested, .unlimited⟩ [⟨2⟩, ⟨3⟩]
    EndsWith ⟨.nested, .ofGrammar .nested, .unlimited⟩ [⟨2⟩, ⟨3⟩] tr ∧ tr.steps.length = 6 ∧
    parse ⟨.nested, .ofGrammar .nested, ⟨some 5⟩⟩ [⟨2⟩, ⟨3⟩] = tr ∧
    (∃ past s, past.length = 5 ∧
      (∀ fuel, 4 < fuel → past ++ [s] <+:
        (parseWithin ⟨.nested, .ofGrammar .nested, .unlimited⟩ fuel [⟨2⟩, ⟨3⟩]).steps) ∧
      parse ⟨.nested, .ofGrammar .nested, ⟨some 4⟩⟩ [⟨2⟩, ⟨3⟩] =
        ⟨past ++ [⟨s.config, .reject .stepLimit⟩], .rejected .stepLimit⟩) ∧
    ∀ k', 5 ≤ k' → parse ⟨.nested, .ofGrammar .nested, ⟨some k'⟩⟩ [⟨2⟩, ⟨3⟩] =
      parse ⟨.nested, .ofGrammar .nested, ⟨some 5⟩⟩ [⟨2⟩, ⟨3⟩] := by
  intro tr
  have hends : EndsWith ⟨.nested, .ofGrammar .nested, .unlimited⟩ [⟨2⟩, ⟨3⟩] tr :=
    ⟨by decide +kernel, _, rfl⟩
  have hlen : tr.steps.length = 6 := by decide +kernel
  have hcut := (limit_cuts .nested (.ofGrammar .nested) [⟨2⟩, ⟨3⟩] 4).2.1 fun tr' hends' => by
    rw [← hends.eq hends', hlen]
    decide
  have hlarger := ((limit_cuts .nested (.ofGrammar .nested) [⟨2⟩, ⟨3⟩] 5).2.2
    (by decide +kernel)).2.2
  exact ⟨hends, hlen, (limit_cuts _ _ _ 5).1 tr hends (by omega), hcut, hlarger⟩

end Limit

end Parser

end Predictive
