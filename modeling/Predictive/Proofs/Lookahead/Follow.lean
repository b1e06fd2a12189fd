-- SUMMARY: FOLLOW sets are the least family of sets that obeys their own rules.
import Predictive.Lookahead.Follow
import Predictive.Proofs.Lookahead.First

/-!
# FOLLOW sets

A pass over the rules adds to the set of a nonterminal what the next symbol after an occurrence
begins with, and what follows the left-hand side if this symbol erases, is unknown or does not
exist. The passes end in sets that obey these rules, and every family of sets that obeys them has
all that is in these sets. The FIRST sets may be those of another grammar.
-/

namespace Predictive.FollowSets

/-- The next of the symbols after an occurrence begins with `x`. -/
def NextBegins (first : FirstSets) (after : List Symbol) (x : Symbol) : Prop :=
  ∃ s, after.head?.bind first.get? = some s ∧ x ∈ s.terminals

/-- What follows the left-hand side of a rule follows an occurrence with these symbols after it. -/
def NextErases (first : FirstSets) (after : List Symbol) : Prop :=
  ∀ s, after.head?.bind first.get? = some s → s.hasEmpty = true

variable {g : Grammar} {first : FirstSets} {f : FollowSets} {outer : LookaheadSet}
  {b x : Symbol} {rhs after : List Symbol}

/-! ## Contributions -/

theorem target_of_mem_occurrence {c : Contribution} (h : c ∈ occurrence first outer b after) :
    c.target = b ∧ c.part.hasEmpty = false := by
  unfold occurrence at h
  split at h
  · simp_all [LookaheadSet.withoutEmpty]
  · split at h
    · rcases List.mem_cons.1 h with rfl | h
      · exact ⟨rfl, rfl⟩
      · obtain rfl := List.mem_singleton.1 h
        exact ⟨rfl, rfl⟩
    · obtain rfl := List.mem_singleton.1 h
      exact ⟨rfl, rfl⟩

theorem exists_mem_occurrence_iff :
    (∃ c ∈ occurrence first outer b after, x ∈ c.part.terminals) ↔
      NextBegins first after x ∨ NextErases first after ∧ x ∈ outer.terminals := by
  unfold NextBegins NextErases occurrence
  cases hnext : after.head?.bind first.get? with
  | none => simp [LookaheadSet.withoutEmpty]
  | some s => cases hempty : s.hasEmpty <;> simp [LookaheadSet.withoutEmpty, hempty]

theorem mem_ofRhs {c : Contribution} :
    c ∈ ofRhs first outer rhs ↔
      ∃ before b after, rhs = before ++ b :: after ∧ c ∈ occurrence first outer b after := by
  induction rhs with
  | nil => simp [ofRhs]
  | cons y ys ih =>
    rw [ofRhs, List.mem_append, ih]
    refine ⟨?_, ?_⟩
    · rintro (h | ⟨before, b, after, rfl, h⟩)
      · exact ⟨[], y, ys, rfl, h⟩
      · exact ⟨y :: before, b, after, rfl, h⟩
    · rintro ⟨before, b, after, hrhs, h⟩
      cases before with
      | nil =>
        obtain ⟨rfl, rfl⟩ := List.cons.inj hrhs
        exact .inl h
      | cons z before =>
        obtain ⟨rfl, rfl⟩ := List.cons.inj hrhs
        exact .inr ⟨before, b, after, rfl, h⟩

theorem mem_contributions {c : Contribution} :
    c ∈ f.contributions g first ↔
      ∃ rule ∈ g.rules, ∃ outer, f.sets[rule.lhs]? = some outer ∧
        c ∈ ofRhs first outer rule.rhs := by
  simp only [contributions, List.mem_flatMap, Array.mem_toList_iff, get?]
  refine exists_congr fun rule => and_congr_right fun _ => ?_
  cases f.sets[rule.lhs]? <;> simp

theorem hasEmpty_of_mem_contributions {c : Contribution} (h : c ∈ f.contributions g first) :
    c.part.hasEmpty = false := by
  obtain ⟨rule, -, outer, -, hc⟩ := mem_contributions.1 h
  obtain ⟨before, b, after, -, hc⟩ := mem_ofRhs.1 hc
  exact (target_of_mem_occurrence hc).2

/-! ## Passes -/

/-- What a pass puts into the sets: what its rules ask for an occurrence in a right-hand side. -/
theorem has_pass :
    (pass g first f).value.sets.Has b x ↔
      f.sets.Has b x ∨ f.sets[b]?.isSome = true ∧
        ∃ rule ∈ g.rules, ∃ before after, rule.rhs = before ++ b :: after ∧
          f.sets[rule.lhs]?.isSome = true ∧
          (NextBegins first after x ∨ NextErases first after ∧ f.sets.Has rule.lhs x) := by
  simp only [pass, LookaheadMap.has_contributeAll, mem_contributions, mem_ofRhs]
  refine or_congr_right (and_congr_right fun _ => ⟨?_, ?_⟩)
  · rintro ⟨c, ⟨rule, hrule, outer, houter, before, b', after, hrhs, hc⟩, htarget, hx⟩
    obtain rfl : b' = b := (target_of_mem_occurrence hc).1.symm.trans htarget
    refine ⟨rule, hrule, before, after, hrhs, by rw [houter]; rfl, ?_⟩
    rcases exists_mem_occurrence_iff.1 ⟨c, hc, hx⟩ with hnext | ⟨herases, hx⟩
    · exact .inl hnext
    · exact .inr ⟨herases, outer, houter, hx⟩
  · rintro ⟨rule, hrule, before, after, hrhs, hsome, hx⟩
    obtain ⟨outer, houter⟩ := Option.isSome_iff_exists.1 hsome
    have hmem : NextBegins first after x ∨ NextErases first after ∧ x ∈ outer.terminals := by
      rcases hx with hnext | ⟨herases, outer', houter', hx⟩
      · exact .inl hnext
      · obtain rfl : outer = outer' := Option.some.inj (houter.symm.trans houter')
        exact .inr ⟨herases, hx⟩
    obtain ⟨c, hc, hx⟩ := exists_mem_occurrence_iff.2 hmem
    exact ⟨c, ⟨rule, hrule, outer, houter, before, b, after, hrhs, hc⟩,
      (target_of_mem_occurrence hc).1, hx⟩

theorem isSome_pass : (pass g first f).value.sets[b]?.isSome = f.sets[b]?.isSome :=
  LookaheadMap.isSome_contributeAll

/-- The empty string is never added. -/
theorem hasEmpty_pass : (pass g first f).value.sets.HasEmpty b ↔ f.sets.HasEmpty b := by
  rw [pass, LookaheadMap.hasEmpty_contributeAll, or_iff_left]
  rintro ⟨-, c, hc, -, hempty⟩
  simp [hasEmpty_of_mem_contributions hc] at hempty

/-- What is true before the first pass and after every one. -/
structure Sound (g : Grammar) (f : FollowSets) : Prop where
  isSome : ∀ b : Symbol, f.sets[b]?.isSome = true ↔ g.isNonterminal b = true
  sorted : f.sets.Sorted

theorem isSome_init (hwf : g.WellFormed) (b : Symbol) :
    (init g).sets[b]?.isSome = true ↔ g.isNonterminal b = true := by
  rw [init, LookaheadMap.isSome_contribute, LookaheadMap.getElem?_ofKeys, ← hwf.mem_nonterminals]
  split <;> simp_all

theorem has_init :
    (init g).sets.Has b x ↔ b ∈ g.nonterminals ∧ b = g.start ∧ x = Grammar.endOfInput := by
  rw [init, LookaheadMap.has_contribute, LookaheadMap.Has, LookaheadMap.getElem?_ofKeys]
  by_cases hb : b ∈ g.nonterminals
  · simp [hb, LookaheadSet.empty, LookaheadSet.singleton, eq_comm]
  · simp [hb]

theorem Sound.init (hwf : g.WellFormed) : Sound g (init g) := by
  refine ⟨isSome_init hwf, LookaheadMap.Sorted.contribute (fun b s hs => ?_) _⟩
  rw [LookaheadMap.getElem?_ofKeys] at hs
  split at hs
  · exact Option.some.inj hs ▸ LookaheadSet.sorted_empty
  · simp at hs

theorem Sound.pass (h : Sound g f) : Sound g (pass g first f).value :=
  ⟨fun b => by rw [isSome_pass]; exact h.isSome b, h.sorted.contributeAll _⟩

/-- A pass reports exactly whether the sets of the nonterminals grew. -/
theorem Sound.exact_pass (hwf : g.WellFormed) (h : Sound g f) :
    Growth.Exact (fun f => LookaheadMap.sizeOver g.nonterminals f.sets) f
      (FollowSets.pass g first f) := by
  have hmap : Growth.Exact (LookaheadMap.sizeOver g.nonterminals) f.sets
      (f.sets.contributeAll (f.contributions g first)) :=
    LookaheadMap.exact_contributeAll fun c _ hsome =>
      (hwf.mem_nonterminals _).2 ((h.isSome _).1 hsome)
  refine ⟨fun hgrew => ?_, hmap.larger⟩
  simp only [FollowSets.pass, hmap.same hgrew]

/-! ## The least solution -/

/-- A family of sets, as a relation, obeys the rules of FOLLOW. -/
structure Obeys (g : Grammar) (first : FirstSets) (P : Symbol → Symbol → Prop) : Prop where
  start : g.isNonterminal g.start = true → P g.start Grammar.endOfInput
  next : ∀ rule ∈ g.rules, ∀ before b after, rule.rhs = before ++ b :: after →
    g.isNonterminal b = true → ∀ x, NextBegins first after x → P b x
  outer : ∀ rule ∈ g.rules, ∀ before b after, rule.rhs = before ++ b :: after →
    g.isNonterminal b = true → NextErases first after → ∀ x, P rule.lhs x → P b x

/-- What is true of the sets on the way if a family obeys the rules: it has all that is in them. -/
structure Within (g : Grammar) (P : Symbol → Symbol → Prop) (f : FollowSets) : Prop where
  sound : f.Sound g
  has : ∀ b x, f.sets.Has b x → P b x

namespace Obeys

variable {P : Symbol → Symbol → Prop} (h : Obeys g first P)
include h

theorem init (hwf : g.WellFormed) : Within g P (init g) := by
  refine ⟨.init hwf, fun b x hx => ?_⟩
  obtain ⟨hb, rfl, rfl⟩ := has_init.1 hx
  exact h.start ((hwf.mem_nonterminals _).1 hb)

theorem pass (hf : Within g P f) : Within g P (pass g first f).value := by
  refine ⟨hf.sound.pass, fun b x hx => ?_⟩
  rcases has_pass.1 hx with hx | ⟨hsome, rule, hrule, before, after, hrhs, -, hx⟩
  · exact hf.has b x hx
  · have hb := (hf.sound.isSome b).1 hsome
    rcases hx with hnext | ⟨herases, hx⟩
    · exact h.next rule hrule before b after hrhs hb x hnext
    · exact h.outer rule hrule before b after hrhs hb herases x (hf.has _ x hx)

/-- Every family that obeys the rules has all that is in the FOLLOW sets. -/
theorem of_has (hwf : g.WellFormed) (hx : (ofGrammar g first).sets.Has b x) : P b x := by
  have hwithin : Within g P (ofGrammar g first) :=
    saturate_keeps (fun _ hf => h.pass hf) (h.init hwf)
  exact hwithin.has b x hx

end Obeys

/-! ## The solution -/

/-- What is in the sets on the way to the solution: the end of input after the start symbol, nothing
    but that and terminals of FIRST sets, and never the empty string. -/
structure Reached (g : Grammar) (first : FirstSets) (f : FollowSets) : Prop where
  within : f.Within g fun _ x => x ∈ Grammar.endOfInput :: firstTerminals first
  start : g.isNonterminal g.start = true → f.sets.Has g.start Grammar.endOfInput
  nonempty : ∀ b, ¬ f.sets.HasEmpty b

theorem obeys_firstTerminals (g : Grammar) (first : FirstSets) :
    Obeys g first fun _ x => x ∈ Grammar.endOfInput :: firstTerminals first := by
  refine ⟨fun _ => List.mem_cons_self, ?_, fun _ _ _ _ _ _ _ _ _ hx => hx⟩
  rintro rule - before b after - - x ⟨s, hs, hx⟩
  obtain ⟨c, -, hc⟩ := Option.bind_eq_some_iff.1 hs
  refine List.mem_cons_of_mem _ (List.mem_eraseDups.2 (List.mem_flatMap.2 ⟨s, ?_, hx⟩))
  exact LookaheadMap.mem_values_of_getElem? hc

theorem Reached.init (hwf : g.WellFormed) : Reached g first (init g) := by
  refine ⟨(obeys_firstTerminals g first).init hwf, fun hstart => ?_, fun b hempty => ?_⟩
  · exact has_init.2 ⟨(hwf.mem_nonterminals _).2 hstart, rfl, rfl⟩
  · simp only [FollowSets.init, LookaheadMap.hasEmpty_contribute] at hempty
    rcases hempty with ⟨s, hs, hempty⟩ | ⟨-, -, hempty⟩
    · rw [LookaheadMap.getElem?_ofKeys] at hs
      split at hs
      · simp [← Option.some.inj hs, LookaheadSet.empty] at hempty
      · cases hs
    · simp [LookaheadSet.singleton] at hempty

theorem Reached.pass (h : Reached g first f) : Reached g first (pass g first f).value :=
  ⟨(obeys_firstTerminals g first).pass h.within, fun hstart => has_pass.2 (.inl (h.start hstart)),
    fun b hempty => h.nonempty b (hasEmpty_pass.1 hempty)⟩

theorem Reached.sizeAt_le (h : Reached g first f) (b : Symbol) :
    LookaheadMap.sizeAt f.sets b ≤ (firstTerminals first).length + 1 := by
  refine LookaheadMap.sizeAt_le fun s hs => ?_
  have hempty : s.hasEmpty = false := Bool.eq_false_iff.2 fun hempty => h.nonempty b ⟨s, hs, hempty⟩
  have hlen := LookaheadSet.Sorted.length_le (h.within.sound.sorted b s hs)
    fun x hx => h.within.has b x ⟨s, hs, hx⟩
  simpa [LookaheadSet.size, hempty] using hlen

theorem solve_fixed (hwf : g.WellFormed) (first : FirstSets) :
    Reached g first (ofGrammar g first) ∧
      (FollowSets.pass g first (ofGrammar g first)).value = ofGrammar g first := by
  refine saturate_fixed (fun f hf => hf.pass) (fun f hf => hf.within.sound.exact_pass hwf)
    (fun f hf => LookaheadMap.sizeOver_le fun b _ => hf.sizeAt_le b) (Reached.init hwf) ?_
  simp only [passBound]
  omega

/-- What the rules ask for is in the sets, since one more pass would not add it. -/
theorem obeys_ofGrammar (hwf : g.WellFormed) (first : FirstSets) :
    Obeys g first (ofGrammar g first).sets.Has := by
  obtain ⟨hreached, hfixed⟩ := solve_fixed hwf first
  have hsome := hreached.within.sound.isSome
  refine ⟨hreached.start, ?_, ?_⟩
  · intro rule hrule before b after hrhs hb x hnext
    have hlhs := (hsome rule.lhs).2 (hwf.nonterminal_lhs rule hrule)
    rw [← hfixed]
    exact has_pass.2 (.inr ⟨(hsome b).2 hb, rule, hrule, before, after, hrhs, hlhs, .inl hnext⟩)
  · intro rule hrule before b after hrhs hb herases x hx
    have hlhs := (hsome rule.lhs).2 (hwf.nonterminal_lhs rule hrule)
    rw [← hfixed]
    exact has_pass.2
      (.inr ⟨(hsome b).2 hb, rule, hrule, before, after, hrhs, hlhs, .inr ⟨herases, hx⟩⟩)

/-- Below its own FIRST sets a grammar has no other symbols in its FOLLOW sets than terminals. -/
theorem terminal_of_has (hwf : g.WellFormed)
    (hx : (ofGrammar g (.ofGrammar g)).sets.Has b x) : g.isTerminal x = true := by
  have hobeys : Obeys g (.ofGrammar g) fun _ x => g.isTerminal x = true := by
    refine ⟨fun _ => hwf.terminal_endOfInput, ?_, fun _ _ _ _ _ _ _ _ _ hx => hx⟩
    rintro rule - before b after - - x ⟨s, hs, hx⟩
    obtain ⟨c, -, hc⟩ := Option.bind_eq_some_iff.1 hs
    exact (FirstSets.sound_ofGrammar hwf).terminal c x ⟨s, hc, hx⟩
  exact hobeys.of_has hwf hx

/-- FOLLOW sets belong to the nonterminals, do without the empty string, obey their rules, and are
    part of every family that obeys them. -/
theorem ofGrammar_least (hbuilt : g.Built) (first : FirstSets) :
    (∀ b, ((ofGrammar g first).get? b).isSome = true ↔ g.isNonterminal b = true) ∧
    (∀ b s, (ofGrammar g first).get? b = some s → s.hasEmpty = false) ∧
    Obeys g first (ofGrammar g first).sets.Has ∧
    ∀ P, Obeys g first P → ∀ b x, (ofGrammar g first).sets.Has b x → P b x := by
  have hwf := hbuilt.wellFormed
  have hreached := (solve_fixed hwf first).1
  refine ⟨hreached.within.sound.isSome, fun b s hs => ?_, obeys_ofGrammar hwf first,
    fun P hP b x hx => hP.of_has hwf hx⟩
  exact Bool.eq_false_iff.2 fun hempty => hreached.nonempty b ⟨s, hs, hempty⟩

/-- FIRST sets of no grammar with `S → a S b` in it: `b` begins with a symbol that this grammar does
    not have, and erases. -/
def strayFirst : FirstSets where
  sets := (∅ : LookaheadMap).insert ⟨3⟩ ⟨true, [⟨7⟩]⟩
  terminalSet := .empty

/-- Below `strayFirst`, `S` in `S → a S b` is followed by that symbol, and it has to be. -/
theorem ofGrammar_least_stray : Grammar.nested.Built ∧
    (ofGrammar .nested strayFirst).get? ⟨1⟩ = some ⟨false, [⟨0⟩, ⟨7⟩]⟩ ∧
    ∀ P, Obeys .nested strayFirst P → P ⟨1⟩ ⟨0⟩ ∧ P ⟨1⟩ ⟨7⟩ := by
  have hleast := (ofGrammar_least Grammar.built_nested strayFirst).2.2.2
  exact ⟨Grammar.built_nested, by decide +kernel, fun P hP =>
    ⟨hleast P hP _ _ (by decide +kernel), hleast P hP _ _ (by decide +kernel)⟩⟩

end Predictive.FollowSets
