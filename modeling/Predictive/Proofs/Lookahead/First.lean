-- SUMMARY: FIRST sets solve their own equations, and nothing is in them without a rule that puts it there.
import Predictive.Lookahead.First
import Predictive.Proofs.Derivation.Basic
import Predictive.Proofs.Grammar.Built
import Predictive.Proofs.Lookahead.Map

/-!
# FIRST sets

The passes of `FirstSets.solve` end in a fixed point. What a right-hand side begins with is then in
the set of its left-hand side, and so is the empty string if the right-hand side erases. In the
other direction, every terminal in the set of a nonterminal is there because of some rule, and a
nonterminal whose set has the empty string derives it.
-/

namespace Predictive.FirstSets

/-! ## Strings -/

/-- The terminal `x` is in the set of the single symbol `y`. -/
def Begins (f : FirstSets) (y x : Symbol) : Prop :=
  if f.terminalSet.contains y = true then x = y else f.sets.Has y x

/-- The symbol lets through to what comes after it. -/
def Erases (f : FirstSets) (y : Symbol) : Prop :=
  f.terminalSet.contains y = false ∧ f.sets.HasEmpty y

variable {g : Grammar} {f f' : FirstSets} {x y a : Symbol} {xs ys : List Symbol}

theorem mem_ofString_cons :
    x ∈ (f.ofString (y :: ys)).terminals ↔
      f.Begins y x ∨ f.Erases y ∧ x ∈ (f.ofString ys).terminals := by
  unfold Begins Erases LookaheadMap.Has LookaheadMap.HasEmpty
  rw [ofString]
  split
  · next hterm => simp [LookaheadSet.singleton, hterm]
  · next hterm =>
    simp only [Bool.not_eq_true] at hterm
    simp only [get?]
    split
    · next hnone => simp [LookaheadSet.empty, hterm, hnone]
    · next s hsome =>
      cases hempty : s.hasEmpty with
      | true => simp [hterm, hsome, hempty, LookaheadSet.mem_unionTerminals, or_comm]
      | false => simp [hterm, hsome, hempty]

theorem hasEmpty_ofString_cons :
    (f.ofString (y :: ys)).hasEmpty = true ↔ f.Erases y ∧ (f.ofString ys).hasEmpty = true := by
  unfold Erases LookaheadMap.HasEmpty
  rw [ofString]
  split
  · next hterm => simp [LookaheadSet.singleton, hterm]
  · next hterm =>
    simp only [Bool.not_eq_true] at hterm
    simp only [get?]
    split
    · next hnone => simp [LookaheadSet.empty, hnone]
    · next s hsome =>
      cases hempty : s.hasEmpty with
      | true => simp [hterm, hsome, hempty, LookaheadSet.hasEmpty_unionTerminals]
      | false => simp [hsome, hempty]

theorem mem_ofString_nil : x ∉ (f.ofString []).terminals := by
  simp [ofString, LookaheadSet.epsilon]

theorem hasEmpty_ofString_nil : (f.ofString []).hasEmpty = true := rfl

theorem hasEmpty_ofString_iff : (f.ofString xs).hasEmpty = true ↔ ∀ y ∈ xs, f.Erases y := by
  induction xs with
  | nil => simp [hasEmpty_ofString_nil]
  | cons y ys ih => rw [hasEmpty_ofString_cons, ih, List.forall_mem_cons]

/-- Larger sets give larger sets of strings. -/
theorem ofString_mono (hterm : f'.terminalSet = f.terminalSet)
    (hhas : ∀ y x, f.sets.Has y x → f'.sets.Has y x)
    (hempty : ∀ y, f.sets.HasEmpty y → f'.sets.HasEmpty y)
    (h : x ∈ (f.ofString xs).terminals) : x ∈ (f'.ofString xs).terminals := by
  induction xs with
  | nil => exact absurd h mem_ofString_nil
  | cons y ys ih =>
    rw [mem_ofString_cons] at h ⊢
    rcases h with hbegins | ⟨⟨hy, hyempty⟩, hrest⟩
    · left
      unfold Begins at hbegins ⊢
      rw [hterm]
      split at hbegins
      · next hy => rwa [if_pos hy]
      · next hy => rw [if_neg hy]; exact hhas y x hbegins
    · exact .inr ⟨⟨hterm ▸ hy, hempty y hyempty⟩, ih hrest⟩

/-! ## Passes -/

/-- What is true before the first pass and after every one. -/
structure Sound (g : Grammar) (f : FirstSets) : Prop where
  terminalSet : f.terminalSet = g.terminalSet
  isSome : ∀ a, g.isNonterminal a = true → f.sets[a]?.isSome = true
  sorted : f.sets.Sorted
  terminal : ∀ a x, f.sets.Has a x → g.isTerminal x = true
  supported : ∀ a x, g.isNonterminal a = true → f.sets.Has a x →
    ∃ rule ∈ g.rules, rule.lhs = a ∧ x ∈ (f.ofString rule.rhs).terminals
  nullable : ∀ a, f.sets.HasEmpty a → g.Nullable a

namespace Sound

variable (h : f.Sound g)
include h

theorem terminal_of_mem_ofString (hx : x ∈ (f.ofString xs).terminals) :
    g.isTerminal x = true := by
  induction xs with
  | nil => exact absurd hx mem_ofString_nil
  | cons y ys ih =>
    rcases mem_ofString_cons.1 hx with hbegins | ⟨-, hrest⟩
    · unfold Begins at hbegins
      split at hbegins
      · next hy => rwa [hbegins, Grammar.isTerminal, ← h.terminalSet]
      · exact h.terminal y x hbegins
    · exact ih hrest

theorem nullable_of_erases (hy : f.Erases y) : g.Nullable y :=
  h.nullable y hy.2

theorem derives_nil_of_hasEmpty (hxs : (f.ofString xs).hasEmpty = true) : g.Derives xs [] :=
  .nil_of_forall fun y hy => h.nullable_of_erases (hasEmpty_ofString_iff.1 hxs y hy)

end Sound

theorem has_pass :
    (pass g f).value.sets.Has a x ↔
      f.sets.Has a x ∨ f.sets[a]?.isSome = true ∧
        ∃ rule ∈ g.rules, rule.lhs = a ∧ x ∈ (f.ofString rule.rhs).terminals := by
  simp only [pass, LookaheadMap.has_contributeAll, contributions, List.mem_map,
    Array.mem_toList_iff, exists_exists_and_eq_and]

theorem hasEmpty_pass :
    (pass g f).value.sets.HasEmpty a ↔
      f.sets.HasEmpty a ∨ f.sets[a]?.isSome = true ∧
        ∃ rule ∈ g.rules, rule.lhs = a ∧ (f.ofString rule.rhs).hasEmpty = true := by
  simp only [pass, LookaheadMap.hasEmpty_contributeAll, contributions, List.mem_map,
    Array.mem_toList_iff, exists_exists_and_eq_and]

/-- Before the first pass a terminal has its own set and a nonterminal an empty one. -/
theorem getElem?_init (g : Grammar) (a : Symbol) :
    (init g).sets[a]? =
      if a ∈ g.terminals then some (.singleton a)
      else if a ∈ g.nonterminals then some .empty else none := by
  rw [init, LookaheadMap.getElem?_foldl_insert, LookaheadMap.getElem?_ofKeys]

theorem Sound.init (hwf : g.WellFormed) : Sound g (init g) := by
  have hkey : ∀ a s, (FirstSets.init g).sets[a]? = some s →
      a ∈ g.terminals ∧ s = .singleton a ∨ s = .empty := by
    intro a s hs
    rw [getElem?_init] at hs
    split at hs
    · next ha => exact .inl ⟨ha, by simpa using hs.symm⟩
    · split at hs
      · exact .inr (by simpa using hs.symm)
      · cases hs
  refine ⟨rfl, ?_, ?_, ?_, ?_, ?_⟩
  · intro a ha
    rw [getElem?_init, if_pos ((hwf.mem_nonterminals a).2 ha)]
    split <;> rfl
  · intro a s hs
    rcases hkey a s hs with ⟨-, rfl⟩ | rfl
    · exact LookaheadSet.sorted_singleton a
    · exact LookaheadSet.sorted_empty
  · rintro a x ⟨s, hs, hx⟩
    rcases hkey a s hs with ⟨ha, rfl⟩ | rfl
    · obtain rfl : x = a := by simpa [LookaheadSet.singleton] using hx
      exact (g.mem_terminals x).1 ha
    · simp [LookaheadSet.empty] at hx
  · rintro a x ha ⟨s, hs, hx⟩
    rcases hkey a s hs with ⟨hterm, -⟩ | rfl
    · simp [hwf.not_terminal a ha, g.mem_terminals a] at hterm
    · simp [LookaheadSet.empty] at hx
  · rintro a ⟨s, hs, hempty⟩
    rcases hkey a s hs with ⟨-, rfl⟩ | rfl
    · simp [LookaheadSet.singleton] at hempty
    · simp [LookaheadSet.empty] at hempty

theorem Sound.pass (h : Sound g f) : Sound g (pass g f).value := by
  -- A pass only adds, so whatever a rule puts into a set it still puts there afterwards.
  have hmono : ∀ {x xs}, x ∈ (f.ofString xs).terminals →
      x ∈ ((FirstSets.pass g f).value.ofString xs).terminals :=
    ofString_mono rfl (fun y x hyx => has_pass.2 (.inl hyx))
      (fun y hy => hasEmpty_pass.2 (.inl hy))
  refine ⟨h.terminalSet, ?_, h.sorted.contributeAll _, ?_, ?_, ?_⟩
  · intro a ha
    change (f.sets.contributeAll (f.contributions g)).value[a]?.isSome = true
    rw [LookaheadMap.isSome_contributeAll]
    exact h.isSome a ha
  · intro a x hx
    rcases has_pass.1 hx with hx | ⟨-, rule, -, -, hx⟩
    · exact h.terminal a x hx
    · exact h.terminal_of_mem_ofString hx
  · intro a x ha hx
    rcases has_pass.1 hx with hx | ⟨-, rule, hrule, hlhs, hx⟩
    · obtain ⟨rule, hrule, hlhs, hx⟩ := h.supported a x ha hx
      exact ⟨rule, hrule, hlhs, hmono hx⟩
    · exact ⟨rule, hrule, hlhs, hmono hx⟩
  · intro a ha
    rcases hasEmpty_pass.1 ha with ha | ⟨-, rule, hrule, rfl, hempty⟩
    · exact h.nullable a ha
    · exact (Grammar.Derives.of_rule hrule).trans (h.derives_nil_of_hasEmpty hempty)

/-- A pass reports exactly whether the sets of the nonterminals grew. -/
theorem exact_pass (hwf : g.WellFormed) (f : FirstSets) :
    Growth.Exact (fun f => LookaheadMap.sizeOver g.nonterminals f.sets) f (FirstSets.pass g f) := by
  have hmap : Growth.Exact (LookaheadMap.sizeOver g.nonterminals) f.sets
      (f.sets.contributeAll (f.contributions g)) := by
    refine LookaheadMap.exact_contributeAll fun c hc _ => ?_
    obtain ⟨rule, hrule, rfl⟩ := List.mem_map.1 hc
    exact (hwf.mem_nonterminals _).2 (hwf.nonterminal_lhs rule (Array.mem_toList_iff.1 hrule))
  refine ⟨?_, ?_⟩
  · intro hgrew
    have hsame : (f.sets.contributeAll (f.contributions g)).value = f.sets := hmap.same hgrew
    simp [FirstSets.pass, hsame]
  · exact hmap.larger

/-- A set holds each terminal at most once, and perhaps the empty string. -/
theorem Sound.sizeAt_le (h : Sound g f) (a : Symbol) :
    LookaheadMap.sizeAt f.sets a ≤ g.terminals.length + 1 := by
  refine LookaheadMap.sizeAt_le fun s hs => ?_
  have hlen : s.terminals.length ≤ g.terminals.length :=
    LookaheadSet.Sorted.length_le (h.sorted a s hs)
      fun x hx => (g.mem_terminals x).2 (h.terminal a x ⟨s, hs, hx⟩)
  exact Nat.add_le_add hlen (Bool.toNat_le _)

/-! ## The solution -/

theorem solve_fixed (hwf : g.WellFormed) :
    Sound g (ofGrammar g) ∧ (FirstSets.pass g (ofGrammar g)).value = ofGrammar g := by
  refine saturate_fixed (fun f hf => hf.pass) (fun f _ => exact_pass hwf f)
    (fun f hf => LookaheadMap.sizeOver_le fun a _ => hf.sizeAt_le a) (Sound.init hwf) ?_
  simp only [passBound]
  omega

variable (hwf : g.WellFormed)
include hwf

theorem sound_ofGrammar : Sound g (ofGrammar g) :=
  (solve_fixed hwf).1

/-- What a right-hand side begins with is in the set of its left-hand side. -/
theorem has_of_rule {rule : Rule} (hrule : rule ∈ g.rules)
    (hx : x ∈ ((ofGrammar g).ofString rule.rhs).terminals) :
    (ofGrammar g).sets.Has rule.lhs x := by
  have hsome := (sound_ofGrammar hwf).isSome _ (hwf.nonterminal_lhs rule hrule)
  rw [← (solve_fixed hwf).2]
  exact has_pass.2 (.inr ⟨hsome, rule, hrule, rfl, hx⟩)

/-- A right-hand side that erases puts the empty string into the set of its left-hand side. -/
theorem hasEmpty_of_rule {rule : Rule} (hrule : rule ∈ g.rules)
    (hempty : ((ofGrammar g).ofString rule.rhs).hasEmpty = true) :
    (ofGrammar g).sets.HasEmpty rule.lhs := by
  have hsome := (sound_ofGrammar hwf).isSome _ (hwf.nonterminal_lhs rule hrule)
  rw [← (solve_fixed hwf).2]
  exact hasEmpty_pass.2 (.inr ⟨hsome, rule, hrule, rfl, hempty⟩)

/-- The set of a terminal stays as it was before the first pass, since no rule is for a terminal. -/
theorem get?_of_terminal (hx : g.isTerminal x = true) :
    (ofGrammar g).get? x = some (.singleton x) := by
  let Kept (f : FirstSets) : Prop := f.sets[x]? = some (.singleton x)
  have hinit : Kept (.init g) := (getElem?_init g x).trans (if_pos ((g.mem_terminals x).2 hx))
  have hpass : ∀ f, Kept f → Kept (pass g f).value := by
    intro f hf
    refine (LookaheadMap.getElem?_contributeAll_of_ne fun c hc => ?_).trans hf
    obtain ⟨rule, hrule, rfl⟩ := List.mem_map.1 hc
    rintro rfl
    have hnonterm := hwf.nonterminal_lhs rule (Array.mem_toList_iff.1 hrule)
    simp [hwf.not_terminal _ hnonterm] at hx
  exact saturate_keeps hpass hinit

/-- The set of a symbol is the one of the string of this symbol alone. -/
theorem ofString_of_get? {s : LookaheadSet} (hs : (ofGrammar g).get? x = some s) :
    (ofGrammar g).ofString [x] = s := by
  have hsound := sound_ofGrammar hwf
  rw [ofString, hsound.terminalSet, ← Grammar.isTerminal]
  cases hterm : g.isTerminal x with
  | true =>
    rw [if_pos rfl]
    exact Option.some.inj ((get?_of_terminal hwf hterm).symm.trans hs)
  | false =>
    rw [if_neg Bool.false_ne_true, hs]
    dsimp only
    split
    · next hempty => exact LookaheadSet.Sorted.epsilon_unionTerminals (hsound.sorted x s hs) hempty
    · rfl

end Predictive.FirstSets
