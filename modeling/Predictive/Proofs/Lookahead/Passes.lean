-- SUMMARY: The passes that compute FIRST and FOLLOW sets end by themselves, and how many there can be.
import Predictive.Proofs.Lookahead.Follow

/-!
# Passes

Nothing but the report of a pass tells whether another one comes. Such a series of passes is
described here without any bound on its length. The series for FIRST and for FOLLOW end, since every
pass but the last enlarges the set of some nonterminal, and none of these sets outgrows what it is
made of. The FIRST sets that FOLLOW reads may be any.
-/

namespace Predictive

variable {α : Type}

/-! ## Series of passes -/

/-- Passes from `a` to `b`, one after the other until one of them reports that nothing was added.
    Each of the `snapshots` is what one pass began with. -/
inductive Rounds (pass : α → Growth α) : (a : α) → (snapshots : List α) → (b : α) → Prop
  | last {a : α} (hgrew : (pass a).grew = false) : Rounds pass a [a] (pass a).value
  | again {a b : α} {snapshots : List α} (hgrew : (pass a).grew = true)
      (hrest : Rounds pass (pass a).value snapshots b) : Rounds pass a (a :: snapshots) b

/-- If no size exceeds the bound, then the passes end before the fuel does. -/
theorem rounds_saturate {pass : α → Growth α} {size : α → Nat} {Inv : α → Prop} {bound : Nat}
    {a : α} (fuel : Nat) (hinv : ∀ a, Inv a → Inv (pass a).value)
    (hexact : ∀ a, Inv a → Growth.Exact size a (pass a)) (hbound : ∀ a, Inv a → size a ≤ bound)
    (ha : Inv a) (hfuel : bound < size a + fuel) :
    ∃ snapshots, Rounds pass a snapshots (saturate pass fuel a).value ∧
      (saturate pass fuel a).passes = snapshots.length ∧ snapshots.length ≤ fuel ∧
      ∀ b ∈ snapshots, Inv b := by
  induction fuel generalizing a with
  | zero => exact absurd (hbound a ha) (by omega)
  | succ fuel ih =>
    unfold saturate
    cases hgrew : (pass a).grew with
    | false =>
      simp only [hgrew, Bool.false_eq_true, ↓reduceIte]
      exact ⟨[a], .last hgrew, rfl, by simp, by simpa using ha⟩
    | true =>
      have hlarger : size a < size (pass a).value := (hexact a ha).larger hgrew
      obtain ⟨snapshots, hrounds, hpasses, hlength, hsnapshots⟩ := ih (hinv a ha) (by omega)
      simp only [hgrew, ↓reduceIte]
      refine ⟨a :: snapshots, .again hgrew hrounds, ?_, ?_, List.forall_mem_cons.2 ⟨ha, hsnapshots⟩⟩
      · rw [hpasses, List.length_cons]
      · simpa using hlength

/-! ## Growing sets -/

namespace LookaheadMap

/-- The set of `k` keeps its elements and gets more of them. -/
structure GrowsAt (m m' : LookaheadMap) (k : Symbol) : Prop where
  keeps : ∀ x, m.Has k x → m'.Has k x
  keepsEmpty : m.HasEmpty k → m'.HasEmpty k
  larger : m.sizeAt k < m'.sizeAt k

variable {m m' : LookaheadMap}

theorem exists_sizeAt_lt {keys : List Symbol} (h : m.sizeOver keys < m'.sizeOver keys) :
    ∃ k ∈ keys, m.sizeAt k < m'.sizeAt k := by
  by_contra hnone
  push Not at hnone
  exact absurd (List.sum_le_sum hnone) (Nat.not_le.2 h)

/-- Contributions only add, so where a total grew some set did. -/
theorem exists_growsAt {keys : List Symbol} {cs : List Contribution}
    (h : m.sizeOver keys < (m.contributeAll cs).value.sizeOver keys) :
    ∃ k, GrowsAt m (m.contributeAll cs).value k := by
  obtain ⟨k, -, hlarger⟩ := exists_sizeAt_lt h
  exact ⟨k, fun x hx => has_contributeAll.2 (.inl hx),
    fun hempty => hasEmpty_contributeAll.2 (.inl hempty), hlarger⟩

end LookaheadMap

/-- A pass that begins with `a` reports no growth only if it ends with `a`, and growth only if some
    set grew. -/
structure Truthful (sets : α → LookaheadMap) (a : α) (g : Growth α) : Prop where
  same : g.grew = false → g.value = a
  grows : g.grew = true → ∃ k, (sets a).GrowsAt (sets g.value) k

/-- The passes from `a` end after no more of them than the bound, with truthful reports on the way,
    and `s` is what they end in. -/
def EndsWithin (pass : α → Growth α) (sets : α → LookaheadMap) (bound : Nat) (a : α)
    (s : Saturation α) : Prop :=
  ∃ snapshots, Rounds pass a snapshots s.value ∧ s.passes = snapshots.length ∧
    snapshots.length ≤ bound ∧ ∀ b ∈ snapshots, Truthful sets b (pass b)

/-! ## FIRST and FOLLOW -/

variable {g : Grammar} {first : FirstSets} {f : FollowSets}

theorem FirstSets.truthful_pass (hwf : g.WellFormed) (f : FirstSets) :
    Truthful FirstSets.sets f (FirstSets.pass g f) where
  same := (exact_pass hwf f).same
  grows hgrew := LookaheadMap.exists_growsAt ((exact_pass hwf f).larger hgrew)

theorem FirstSets.endsWithin_solve (hwf : g.WellFormed) :
    EndsWithin (pass g) sets (g.nonterminals.length * (g.terminals.length + 1) + 1) (init g)
      (solve g) := by
  obtain ⟨snapshots, hrounds, hpasses, hlength, -⟩ :=
    rounds_saturate (passBound g) (fun f hf => hf.pass) (fun f _ => exact_pass hwf f)
      (fun f hf => LookaheadMap.sizeOver_le fun a _ => hf.sizeAt_le a) (Sound.init hwf)
      (by rw [passBound]; omega)
  exact ⟨snapshots, hrounds, hpasses, hlength, fun f _ => truthful_pass hwf f⟩

theorem FollowSets.truthful_pass (hwf : g.WellFormed) (h : f.Sound g) :
    Truthful FollowSets.sets f (FollowSets.pass g first f) := by
  have hexact : Growth.Exact _ f (pass g first f) := h.exact_pass hwf
  exact ⟨hexact.same, fun hgrew => LookaheadMap.exists_growsAt (hexact.larger hgrew)⟩

theorem FollowSets.endsWithin_solve (hwf : g.WellFormed) (first : FirstSets) :
    EndsWithin (pass g first) sets
      (g.nonterminals.length * ((firstTerminals first).length + 1) + 1) (init g)
      (solve g first) := by
  obtain ⟨snapshots, hrounds, hpasses, hlength, hsnapshots⟩ :=
    rounds_saturate (passBound g first) (fun f hf => hf.pass)
      (fun f hf => hf.within.sound.exact_pass hwf)
      (fun f (hf : Reached g first f) => LookaheadMap.sizeOver_le fun b _ => hf.sizeAt_le b)
      (Reached.init hwf) (by rw [passBound]; omega)
  exact ⟨snapshots, hrounds, hpasses, hlength,
    fun f hf => truthful_pass hwf (hsnapshots f hf).within.sound⟩

/-- The computation of FIRST and FOLLOW sets comes to an end. A pass over the rules adds at least
    one terminal or the empty string to the set of a nonterminal, or it is the last one. -/
theorem endsWithin_solve_of_built (hbuilt : g.Built) :
    EndsWithin (FirstSets.pass g) FirstSets.sets
      (g.nonterminals.length * (g.terminals.length + 1) + 1) (FirstSets.init g)
      (FirstSets.solve g) ∧
    ∀ first, EndsWithin (FollowSets.pass g first) FollowSets.sets
      (g.nonterminals.length * ((FollowSets.firstTerminals first).length + 1) + 1)
      (FollowSets.init g) (FollowSets.solve g first) :=
  ⟨FirstSets.endsWithin_solve hbuilt.wellFormed, FollowSets.endsWithin_solve hbuilt.wellFormed⟩

/-- `S → a S b | ε` has one nonterminal and three terminals, and `strayFirst` has one terminal,
    which is none of these. -/
theorem endsWithin_solve_nested : Grammar.nested.Built ∧
    EndsWithin (FirstSets.pass .nested) FirstSets.sets 5 (FirstSets.init .nested)
      (FirstSets.solve .nested) ∧
    (FirstSets.solve .nested).passes = 2 ∧
    EndsWithin (FollowSets.pass .nested FollowSets.strayFirst) FollowSets.sets 3
      (FollowSets.init .nested) (FollowSets.solve .nested FollowSets.strayFirst) ∧
    (FollowSets.solve .nested FollowSets.strayFirst).passes = 2 := by
  obtain ⟨hfirst, hfollow⟩ := endsWithin_solve_of_built Grammar.built_nested
  have hterminals : Grammar.nested.nonterminals.length * (Grammar.nested.terminals.length + 1) + 1
      = 5 := by decide +kernel
  have hstray : Grammar.nested.nonterminals.length *
      ((FollowSets.firstTerminals FollowSets.strayFirst).length + 1) + 1 = 3 := by decide +kernel
  exact ⟨Grammar.built_nested, hterminals ▸ hfirst, by decide +kernel,
    hstray ▸ hfollow FollowSets.strayFirst, by decide +kernel⟩

end Predictive
