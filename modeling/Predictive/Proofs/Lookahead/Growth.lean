-- SUMMARY: Operations whose reports of growth are exact, and why repeating them ends in a fixed point.
import Predictive.Lookahead.Growth

/-!
# Exact reports of growth

Passes are repeated on the word of a single flag. The flag is worth something if it is `Exact`: a
report of no growth means that nothing changed, and a report of growth that some size increased.
With a bound on that size, `saturate` then stops at a fixed point.
-/

namespace Predictive

variable {α β : Type}

namespace Growth

/-- The outcome of an operation on `a` reports growth just when its size grew, and otherwise leaves
    `a` as it was. -/
structure Exact (size : α → Nat) (a : α) (g : Growth α) : Prop where
  same : g.grew = false → g.value = a
  larger : g.grew = true → size a < size g.value

variable {size : α → Nat} {a : α}

theorem Exact.still (size : α → Nat) (a : α) : Exact size a (.still a) :=
  ⟨fun _ => rfl, fun h => by simp [Growth.still] at h⟩

theorem Exact.size_le {g : Growth α} (h : Exact size a g) : size a ≤ size g.value := by
  cases hgrew : g.grew with
  | false => exact Nat.le_of_eq (by rw [h.same hgrew])
  | true => exact Nat.le_of_lt (h.larger hgrew)

theorem Exact.andThen {g : Growth α} {f : α → Growth α} (h : Exact size a g)
    (hf : Exact size g.value (f g.value)) : Exact size a (g.andThen f) := by
  refine ⟨?_, ?_⟩
  · intro hgrew
    simp only [Growth.andThen, Bool.or_eq_false_iff] at hgrew ⊢
    rw [hf.same hgrew.2, h.same hgrew.1]
  · intro hgrew
    simp only [Growth.andThen, Bool.or_eq_true] at hgrew ⊢
    rcases hgrew with hgrew | hgrew
    · exact Nat.lt_of_lt_of_le (h.larger hgrew) hf.size_le
    · exact Nat.lt_of_le_of_lt h.size_le (hf.larger hgrew)

/-- An exact report tells whether anything changed. -/
theorem Exact.grew_iff {g : Growth α} (h : Exact size a g) : g.grew = true ↔ g.value ≠ a := by
  refine ⟨fun hgrew heq => ?_, fun hne => ?_⟩
  · exact Nat.ne_of_lt (h.larger hgrew) (congrArg size heq.symm)
  · exact Bool.not_eq_false _ ▸ fun hgrew => hne (h.same hgrew)

theorem Exact.grew_iff_lt {g : Growth α} (h : Exact size a g) :
    g.grew = true ↔ size a < size g.value := by
  refine ⟨h.larger, fun hlt => h.grew_iff.2 fun heq => ?_⟩
  exact Nat.lt_irrefl _ (heq ▸ hlt)

/-- Operations on the same subject with exact reports have the same outcome if they have the same
    value. -/
theorem Exact.eq_of_value {size' : α → Nat} {g g' : Growth α} (h : Exact size a g)
    (h' : Exact size' a g') (hvalue : g.value = g'.value) : g = g' := by
  have hgrew : g.grew = g'.grew := by rw [Bool.eq_iff_iff, h.grew_iff, h'.grew_iff, hvalue]
  cases g
  cases g'
  simp_all

/-- The value of a sequence of operations is built by each of them in turn. -/
theorem value_each (f : α → β → Growth α) (a : α) (bs : List β) :
    (each f a bs).value = bs.foldl (fun a b => (f a b).value) a := by
  suffices h : ∀ g : Growth α, (bs.foldl (fun g b => g.andThen fun a => f a b) g).value =
      bs.foldl (fun a b => (f a b).value) g.value from h (.still a)
  induction bs with
  | nil => exact fun _ => rfl
  | cons b bs ih => exact fun g => ih _

/-- A sequence of operations is exact if each of them is, as long as they keep what this rests
    on. -/
theorem Exact.each_of_keeps {P : α → Prop} {f : α → β → Growth α} {bs : List β}
    (hkeeps : ∀ a, ∀ b ∈ bs, P a → P (f a b).value)
    (hf : ∀ a, ∀ b ∈ bs, P a → Exact size a (f a b)) (ha : P a) :
    Exact size a (Growth.each f a bs) := by
  suffices h : ∀ g : Growth α, P g.value → Exact size a g →
      Exact size a (bs.foldl (fun g b => g.andThen fun a => f a b) g) from h _ ha (.still size a)
  induction bs with
  | nil => exact fun _ _ hg => hg
  | cons b bs ih =>
    intro g hg hexact
    refine ih (fun a c hc => hkeeps a c (by simp [hc])) (fun a c hc => hf a c (by simp [hc]))
      _ ?_ ?_
    · exact hkeeps g.value b (by simp) hg
    · exact hexact.andThen (hf g.value b (by simp) hg)

/-- Sequences of operations with the same outcomes have the same outcome. -/
theorem each_congr {P : α → Prop} {f f' : α → β → Growth α} {bs : List β}
    (hkeeps : ∀ a b, P a → P (f a b).value) (hf : ∀ a b, P a → f' a b = f a b) (ha : P a) :
    Growth.each f' a bs = Growth.each f a bs := by
  suffices h : ∀ g : Growth α, P g.value → bs.foldl (fun g b => g.andThen fun a => f' a b) g =
      bs.foldl (fun g b => g.andThen fun a => f a b) g from h (.still a) ha
  induction bs with
  | nil => exact fun _ _ => rfl
  | cons b bs ih =>
    intro g hg
    have hstep : (g.andThen fun a => f' a b) = g.andThen fun a => f a b := by
      rw [andThen, andThen, hf g.value b hg]
    rw [List.foldl_cons, List.foldl_cons, hstep]
    exact ih _ (hkeeps g.value b hg)

theorem Exact.each {f : α → β → Growth α} {bs : List β}
    (hf : ∀ a, ∀ b ∈ bs, Exact size a (f a b)) : Exact size a (Growth.each f a bs) :=
  .each_of_keeps (P := fun _ => True) (fun _ _ _ _ => trivial) (fun a b hb _ => hf a b hb) trivial

end Growth

section

variable {pass pass' : α → Growth α} {size : α → Nat} {Inv : α → Prop} {bound fuel : Nat} {a : α}

/-- What a pass keeps, all of them keep. -/
theorem saturate_keeps (hinv : ∀ a, Inv a → Inv (pass a).value) (ha : Inv a) :
    Inv (saturate pass fuel a).value := by
  induction fuel generalizing a with
  | zero => exact ha
  | succ fuel ih =>
    unfold saturate
    dsimp only
    split
    · exact ih (hinv a ha)
    · exact hinv a ha

/-- Passes with the same outcomes are repeated equally often, with the same result. -/
theorem saturate_congr (hinv : ∀ a, Inv a → Inv (pass a).value)
    (hpass : ∀ a, Inv a → pass' a = pass a) (ha : Inv a) :
    saturate pass' fuel a = saturate pass fuel a := by
  induction fuel generalizing a with
  | zero => rfl
  | succ fuel ih =>
    unfold saturate
    rw [hpass a ha]
    dsimp only
    split
    · rw [ih (hinv a ha)]
    · rfl

/-- Repeated passes with exact reports end in a fixed point if there are more of them than the size
    can grow, and keep what every single pass keeps. -/
theorem saturate_fixed (hinv : ∀ a, Inv a → Inv (pass a).value)
    (hexact : ∀ a, Inv a → Growth.Exact size a (pass a)) (hbound : ∀ a, Inv a → size a ≤ bound)
    (ha : Inv a) (hfuel : bound < size a + fuel) :
    Inv (saturate pass fuel a).value ∧
      (pass (saturate pass fuel a).value).value = (saturate pass fuel a).value := by
  induction fuel generalizing a with
  | zero => exact absurd (hbound a ha) (by omega)
  | succ fuel ih =>
    unfold saturate
    cases hgrew : (pass a).grew with
    | false =>
      have hsame : (pass a).value = a := (hexact a ha).same hgrew
      simp only [hgrew, hsame, Bool.false_eq_true, ↓reduceIte]
      exact ⟨ha, trivial⟩
    | true =>
      have hlarger : size a < size (pass a).value := (hexact a ha).larger hgrew
      simp only [hgrew, ↓reduceIte]
      exact ih (hinv a ha) (by omega)

end

end Predictive
