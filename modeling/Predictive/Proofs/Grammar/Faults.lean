-- SUMMARY: Which error a history of builder steps ends in, said by the history alone.
import Predictive.Proofs.Grammar.History
import Predictive.Proofs.Grammar.Rows

/-!
# Faults

Whether a builder makes a grammar, and which error it reports otherwise, depends on its whole
history: symbols count as issued if they are created at any time, also after their use, and the
start symbol may be set anywhere. Of several faults the first one is reported, where the start
symbol comes before the declared nonterminals, and these come before the right-hand sides.
-/

namespace Predictive.Builder

/-! ## Histories -/

variable {steps : List BuilderStep} {x : Symbol} {e : BuildError} {e? : Option BuildError}

/-- The start symbol that was set last, or else the nonterminal that was declared first. -/
def startOf? (steps : List BuilderStep) : Option Symbol :=
  (steps.filterMap BuilderStep.chosen?).getLast? <|>
    (steps.filterMap BuilderStep.declared?).head?

/-- The left-hand sides that were given, in order and with repetitions. -/
def declaredIn (steps : List BuilderStep) : List Symbol :=
  steps.filterMap BuilderStep.declared?

/-- The symbols on the right-hand sides of the added rules, in order. -/
def mentionedIn (steps : List BuilderStep) : List Symbol :=
  (steps.flatMap BuilderStep.added).flatMap Rule.rhs

/-- The symbol is `$`, which has the ID 0, or one of the steps created it. -/
def IssuedBy (steps : List BuilderStep) (x : Symbol) : Prop :=
  x.id ≤ (steps.filterMap BuilderStep.created?).length

/-- The symbol may stand on the left of rules. -/
def MayHaveRules (steps : List BuilderStep) (x : Symbol) : Prop :=
  IssuedBy steps x ∧ x ≠ Grammar.endOfInput

/-- The first symbol that does not have the property. -/
def FirstWithout (P : Symbol → Prop) (xs : List Symbol) (x : Symbol) : Prop :=
  ¬ P x ∧ ∃ before after, xs = before ++ x :: after ∧ ∀ y ∈ before, P y

/-- What becomes of a history: an error, or none. -/
inductive Verdict (steps : List BuilderStep) : Option BuildError → Prop
  | noRules (h : ∀ step ∈ steps, step.chosen? = none ∧ step.declared? = none) :
      Verdict steps (some .noRules)
  | foreignStart {start : Symbol} (hstart : startOf? steps = some start)
      (hforeign : ¬ IssuedBy steps start) : Verdict steps (some (.foreignSymbol start))
  | foreignLhs {start x : Symbol} (hstart : startOf? steps = some start)
      (hissued : IssuedBy steps start)
      (hfirst : FirstWithout (MayHaveRules steps) (declaredIn steps) x)
      (hforeign : ¬ IssuedBy steps x) : Verdict steps (some (.foreignSymbol x))
  | endOfInputAsLhs {start : Symbol} (hstart : startOf? steps = some start)
      (hissued : IssuedBy steps start)
      (hfirst : FirstWithout (MayHaveRules steps) (declaredIn steps) Grammar.endOfInput) :
      Verdict steps (some .endOfInputAsLhs)
  | foreignRhs {start x : Symbol} (hstart : startOf? steps = some start)
      (hissued : IssuedBy steps start) (hdeclared : ∀ y ∈ declaredIn steps, MayHaveRules steps y)
      (hfirst : FirstWithout (IssuedBy steps) (mentionedIn steps) x) :
      Verdict steps (some (.foreignSymbol x))
  | sound {start : Symbol} (hstart : startOf? steps = some start)
      (hissued : IssuedBy steps start) (hdeclared : ∀ y ∈ declaredIn steps, MayHaveRules steps y)
      (hmentioned : ∀ y ∈ mentionedIn steps, IssuedBy steps y) : Verdict steps none

/-! ## First faults -/

/-- The first fault in a list is the fault of the first symbol that has one. -/
theorem findSome?_eq_some_iff_firstWithout {fault? : Symbol → Option BuildError}
    {P : Symbol → Prop} (hfault : ∀ y, fault? y = none ↔ P y) {xs : List Symbol} :
    xs.findSome? fault? = some e ↔ ∃ x, FirstWithout P xs x ∧ fault? x = some e := by
  simp only [List.findSome?_eq_some_iff, FirstWithout, ← hfault]
  refine ⟨?_, ?_⟩
  · rintro ⟨before, x, after, hxs, hx, hbefore⟩
    exact ⟨x, ⟨by simp [hx], before, after, hxs, hbefore⟩, hx⟩
  · rintro ⟨x, ⟨-, before, after, hxs, hbefore⟩, hx⟩
    exact ⟨before, x, after, hxs, hx, hbefore⟩

/-- What is searched for is not found later than at its first occurrence. -/
theorem findSome?_eraseDups {α β : Type} [DecidableEq α] (f : α → Option β) (xs : List α) :
    xs.eraseDups.findSome? f = xs.findSome? f := by
  induction xs using List.reverseRecOn with
  | nil => rfl
  | append_singleton xs x ih =>
    rw [eraseDups_concat, List.findSome?_append, List.findSome?_append, ih]
    split
    · next hx =>
      cases hxs : xs.findSome? f with
      | some b => rfl
      | none => simp [List.findSome?_eq_none_iff.1 hxs x hx]
    · rfl

/-! ## The faults of a builder -/

theorem size_ofSteps (steps : List BuilderStep) :
    (ofSteps steps).table.size = (steps.filterMap BuilderStep.created?).length + 1 := by
  rw [SymbolTable.size, ← Array.length_toList, names_ofSteps, List.length_cons]

theorem foreign?_eq_none_iff_issuedBy :
    (ofSteps steps).foreign? x = none ↔ IssuedBy steps x := by
  rw [foreign?_eq_none, size_ofSteps, IssuedBy, Nat.lt_succ_iff]

theorem foreign?_of_not_issuedBy (h : ¬ IssuedBy steps x) :
    (ofSteps steps).foreign? x = some (.foreignSymbol x) := by
  rw [← foreign?_eq_none_iff_issuedBy, foreign?] at h
  rw [foreign?]
  split at h
  · exact absurd rfl h
  · next hissued => rw [if_neg hissued]

theorem lhsFault?_eq_none_iff_mayHaveRules :
    (ofSteps steps).lhsFault? x = none ↔ MayHaveRules steps x := by
  rw [lhsFault?, Option.orElse_eq_orElse, Option.orElse_eq_or, Option.or_eq_none_iff,
    foreign?_eq_none_iff_issuedBy, MayHaveRules]
  simp

theorem lhsFault?_of_not_issuedBy (h : ¬ IssuedBy steps x) :
    (ofSteps steps).lhsFault? x = some (.foreignSymbol x) := by
  rw [lhsFault?, foreign?_of_not_issuedBy h]
  rfl

/-- The end of input is issued before anything else, so it is never foreign. -/
theorem lhsFault?_endOfInput :
    (ofSteps steps).lhsFault? Grammar.endOfInput = some .endOfInputAsLhs := by
  have hissued : IssuedBy steps Grammar.endOfInput := Nat.zero_le _
  rw [lhsFault?, foreign?_eq_none_iff_issuedBy.2 hissued]
  rfl

theorem findSome?_declared :
    (ofSteps steps).declared.toList.findSome? (ofSteps steps).lhsFault? =
      (declaredIn steps).findSome? (ofSteps steps).lhsFault? := by
  rw [declared_ofSteps, findSome?_eraseDups, declaredIn]

theorem startOf?_eq_none_iff :
    startOf? steps = none ↔ ∀ step ∈ steps, step.chosen? = none ∧ step.declared? = none := by
  simp [startOf?, forall_and]

/-- The faults of a builder by its history. -/
theorem fault?_ofSteps (steps : List BuilderStep) :
    (ofSteps steps).fault? = match startOf? steps with
      | none => some .noRules
      | some start =>
        ((ofSteps steps).foreign? start).or
          (((declaredIn steps).findSome? (ofSteps steps).lhsFault?).or
            ((mentionedIn steps).findSome? (ofSteps steps).foreign?)) := by
  have hmentioned : (ofSteps steps).mentioned = mentionedIn steps := by
    rw [mentioned, rules_ofSteps, mentionedIn]
  have hstart : (ofSteps steps).start? = startOf? steps := start?_ofSteps steps
  rw [fault?, hstart, hmentioned, findSome?_declared]
  cases startOf? steps with
  | none => rfl
  | some start => simp only [Option.orElse_eq_orElse, Option.orElse_eq_or]

theorem Verdict.fault?_eq (h : Verdict steps e?) : (ofSteps steps).fault? = e? := by
  rw [fault?_ofSteps]
  cases h with
  | noRules h => rw [startOf?_eq_none_iff.2 h]
  | foreignStart hstart hforeign =>
    simp only [hstart, foreign?_of_not_issuedBy hforeign, Option.some_or]
  | foreignLhs hstart hissued hfirst hforeign =>
    have hdeclared := (findSome?_eq_some_iff_firstWithout
      fun _ => lhsFault?_eq_none_iff_mayHaveRules).2 ⟨_, hfirst, lhsFault?_of_not_issuedBy hforeign⟩
    simp only [hstart, foreign?_eq_none_iff_issuedBy.2 hissued, hdeclared, Option.none_or,
      Option.some_or]
  | endOfInputAsLhs hstart hissued hfirst =>
    have hdeclared := (findSome?_eq_some_iff_firstWithout
      fun _ => lhsFault?_eq_none_iff_mayHaveRules).2 ⟨_, hfirst, lhsFault?_endOfInput⟩
    simp only [hstart, foreign?_eq_none_iff_issuedBy.2 hissued, hdeclared, Option.none_or,
      Option.some_or]
  | foreignRhs hstart hissued hdeclared hfirst =>
    have hdeclared := List.findSome?_eq_none_iff.2 fun y hy =>
      lhsFault?_eq_none_iff_mayHaveRules.2 (hdeclared y hy)
    have hmentioned := (findSome?_eq_some_iff_firstWithout
      fun _ => foreign?_eq_none_iff_issuedBy).2 ⟨_, hfirst, foreign?_of_not_issuedBy hfirst.1⟩
    simp only [hstart, foreign?_eq_none_iff_issuedBy.2 hissued, hdeclared, hmentioned,
      Option.none_or]
  | sound hstart hissued hdeclared hmentioned =>
    have hdeclared := List.findSome?_eq_none_iff.2 fun y hy =>
      lhsFault?_eq_none_iff_mayHaveRules.2 (hdeclared y hy)
    have hmentioned := List.findSome?_eq_none_iff.2 fun y hy =>
      foreign?_eq_none_iff_issuedBy.2 (hmentioned y hy)
    simp only [hstart, foreign?_eq_none_iff_issuedBy.2 hissued, hdeclared, hmentioned,
      Option.none_or]

/-- Every history has a verdict. -/
theorem exists_verdict (steps : List BuilderStep) : ∃ e?, Verdict steps e? := by
  cases hstart : startOf? steps with
  | none => exact ⟨_, .noRules (startOf?_eq_none_iff.1 hstart)⟩
  | some start =>
    by_cases hissued : IssuedBy steps start
    · cases hdeclared : (declaredIn steps).findSome? (ofSteps steps).lhsFault? with
      | some e =>
        obtain ⟨x, hfirst, -⟩ := (findSome?_eq_some_iff_firstWithout
          fun _ => lhsFault?_eq_none_iff_mayHaveRules).1 hdeclared
        by_cases hx : IssuedBy steps x
        · obtain rfl : x = Grammar.endOfInput := of_not_not fun hne => hfirst.1 ⟨hx, hne⟩
          exact ⟨_, .endOfInputAsLhs hstart hissued hfirst⟩
        · exact ⟨_, .foreignLhs hstart hissued hfirst hx⟩
      | none =>
        have hdeclared : ∀ y ∈ declaredIn steps, MayHaveRules steps y := fun y hy =>
          lhsFault?_eq_none_iff_mayHaveRules.1 (List.findSome?_eq_none_iff.1 hdeclared y hy)
        cases hmentioned : (mentionedIn steps).findSome? (ofSteps steps).foreign? with
        | some e =>
          obtain ⟨x, hfirst, -⟩ := (findSome?_eq_some_iff_firstWithout
            fun _ => foreign?_eq_none_iff_issuedBy).1 hmentioned
          exact ⟨_, .foreignRhs hstart hissued hdeclared hfirst⟩
        | none =>
          refine ⟨_, .sound hstart hissued hdeclared fun y hy => ?_⟩
          exact foreign?_eq_none_iff_issuedBy.1 (List.findSome?_eq_none_iff.1 hmentioned y hy)
    · exact ⟨_, .foreignStart hstart hissued⟩

theorem verdict_iff : Verdict steps e? ↔ (ofSteps steps).fault? = e? := by
  refine ⟨Verdict.fault?_eq, fun h => ?_⟩
  obtain ⟨e?', hverdict⟩ := exists_verdict steps
  exact (hverdict.fault?_eq.symm.trans h) ▸ hverdict

/-! ## The outcome of building -/

theorem build_eq_error_iff {b : Builder} : b.build = .error e ↔ b.fault? = some e := by
  unfold build
  cases hfault : b.fault? with
  | some e' => simp
  | none =>
    obtain ⟨start, hstart, -⟩ := exists_start_of_fault? hfault
    simp [hstart]

theorem exists_build_eq_ok_iff {b : Builder} : (∃ g, b.build = .ok g) ↔ b.fault? = none := by
  cases hbuild : b.build with
  | error e => simp [build_eq_error_iff.1 hbuild]
  | ok g => simp [(build_eq_ok hbuild).1]

/-- The verdict on a history is what building ends in. When building goes over the collected symbols
    and rules with rows indexed by symbols, it ends in the same, and whatever the history was no
    index is out of range. -/
theorem build_verdict (steps : List BuilderStep) :
    (∀ e, (ofSteps steps).build = .error e ↔ Verdict steps (some e)) ∧
    ((∃ g, (ofSteps steps).build = .ok g) ↔ Verdict steps none) ∧
    (ofSteps steps).buildWithRows = (ofSteps steps).build.mapError Halt.fault ∧
    ∀ x, (ofSteps steps).buildWithRows ≠ .error (.outOfRange x) := by
  have hrows : (ofSteps steps).buildWithRows = (ofSteps steps).build.mapError Halt.fault :=
    buildWithRows_eq (fun _ => lhs_mem_declared) (nodup_declared steps)
  refine ⟨fun e => ?_, ?_, hrows, fun x => ?_⟩
  · rw [build_eq_error_iff, verdict_iff]
  · rw [exists_build_eq_ok_iff, verdict_iff]
  · rw [hrows]
    cases (ofSteps steps).build <;> simp [Except.mapError]

end Predictive.Builder
