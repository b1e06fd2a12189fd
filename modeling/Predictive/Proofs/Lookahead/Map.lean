-- SUMMARY: What contributions do to the sets of a lookahead map, and the size that bounds them.
import Mathlib.Algebra.GroupWithZero.Nat
import Mathlib.Algebra.Order.BigOperators.Group.List
import Mathlib.Algebra.Order.Group.Nat
import Predictive.Lookahead.Map
import Predictive.Proofs.Lookahead.Set

/-!
# Members of the sets of a map

A map is looked at through `Has` and `HasEmpty`, which say what is in the set of a symbol. A symbol
without a set has nothing in it, and contributions neither add nor remove sets.
-/

namespace Predictive.LookaheadMap

/-- The terminal `x` is in the set of `k`. -/
def Has (m : LookaheadMap) (k x : Symbol) : Prop :=
  ∃ s, m[k]? = some s ∧ x ∈ s.terminals

/-- The empty string is in the set of `k`. -/
def HasEmpty (m : LookaheadMap) (k : Symbol) : Prop :=
  ∃ s, m[k]? = some s ∧ s.hasEmpty = true

instance (m : LookaheadMap) (k x : Symbol) : Decidable (m.Has k x) :=
  match h : m[k]? with
  | none => isFalse (by simp [Has, h])
  | some s => decidable_of_iff (x ∈ s.terminals) (by simp [Has, h])

/-- Every set is in ascending order. -/
def Sorted (m : LookaheadMap) : Prop :=
  ∀ (k : Symbol) (s : LookaheadSet), m[k]? = some s → s.Sorted

variable {m : LookaheadMap} {c : Contribution} {cs : List Contribution} {k x : Symbol}

/-- Maps of sets in ascending order are equal if they have sets for the same symbols, with the same
    elements. -/
theorem Sorted.eq_of_has {m m' : LookaheadMap} (hm : m.Sorted) (hm' : m'.Sorted)
    (hsome : ∀ k : Symbol, m[k]?.isSome = m'[k]?.isSome) (hhas : ∀ k x, m.Has k x ↔ m'.Has k x)
    (hempty : ∀ k, m.HasEmpty k ↔ m'.HasEmpty k) : m = m' := by
  refine Std.ExtTreeMap.ext_getElem? fun k => ?_
  have hsome := hsome k
  cases hs : m[k]? with
  | none =>
    rw [hs, Option.isSome_none] at hsome
    exact (Option.not_isSome_iff_eq_none.1 (by rw [← hsome]; decide)).symm
  | some s =>
    rw [hs, Option.isSome_some] at hsome
    obtain ⟨s', hs'⟩ := Option.isSome_iff_exists.1 hsome.symm
    rw [hs', Option.some.injEq]
    refine (hm k s hs).eq_of_mem (hm' k s' hs') ?_ fun x => ?_
    · rw [Bool.eq_iff_iff]
      simpa [HasEmpty, hs, hs'] using hempty k
    · simpa [Has, hs, hs'] using hhas k x

theorem getElem?_insert (m : LookaheadMap) (y : Symbol) (s : LookaheadSet) (k : Symbol) :
    (m.insert y s)[k]? = if y = k then some s else m[k]? := by
  simp only [Std.ExtTreeMap.getElem?_insert, Std.LawfulEqOrd.compare_eq_iff_eq]

/-- Filling a map with one set for each of the given symbols. -/
theorem getElem?_foldl_insert (set : Symbol → LookaheadSet) (ys : List Symbol) (m : LookaheadMap)
    (k : Symbol) :
    (ys.foldl (fun m y => m.insert y (set y)) m)[k]? = if k ∈ ys then some (set k) else m[k]? := by
  induction ys generalizing m with
  | nil => simp
  | cons y ys ih =>
    rw [List.foldl_cons, ih, getElem?_insert]
    by_cases hys : k ∈ ys
    · simp [hys]
    · by_cases hy : k = y
      · simp [hy]
      · simp [hys, hy, Ne.symm hy]

theorem getElem?_ofKeys (keys : List Symbol) (k : Symbol) :
    (ofKeys keys)[k]? = if k ∈ keys then some .empty else none := by
  rw [ofKeys, getElem?_foldl_insert fun _ => .empty]
  simp

/-- The set of a symbol is among the sets of the map. -/
theorem mem_values_of_getElem? {s : LookaheadSet} (h : m[k]? = some s) : s ∈ m.values := by
  have hfold : m.values = m.foldr (fun _ s values => s :: values) [] := by
    obtain ⟨⟨m⟩⟩ := m
    induction m using Quotient.inductionOn with
    | h t => rfl
  have hvalues : m.values = m.toList.map Prod.snd := by
    rw [hfold, Std.ExtTreeMap.foldr_eq_foldr_toList, List.map_eq_foldr]
  rw [hvalues]
  exact List.mem_map.2 ⟨(k, s), Std.ExtTreeMap.mem_toList_iff_getElem?_eq_some.2 h, rfl⟩

/-! ## Single contributions -/

theorem getElem?_contribute (m : LookaheadMap) (c : Contribution) (k : Symbol) :
    (m.contribute c).value[k]? =
      if c.target = k then m[k]?.map fun s => (s.union c.part).value else m[k]? := by
  unfold contribute
  split
  · next hnone =>
    split
    · next heq => simp [Growth.still, ← heq, hnone]
    · rfl
  · next s hsome =>
    rw [getElem?_insert]
    split
    · next heq => simp [← heq, hsome]
    · rfl

theorem has_contribute :
    (m.contribute c).value.Has k x ↔
      m.Has k x ∨ m[k]?.isSome = true ∧ c.target = k ∧ x ∈ c.part.terminals := by
  simp only [Has, getElem?_contribute]
  cases hk : m[k]? with
  | none => simp
  | some s =>
    by_cases htarget : c.target = k
    · simp [htarget, LookaheadSet.mem_union]
    · simp [htarget]

theorem hasEmpty_contribute :
    (m.contribute c).value.HasEmpty k ↔
      m.HasEmpty k ∨ m[k]?.isSome = true ∧ c.target = k ∧ c.part.hasEmpty = true := by
  simp only [HasEmpty, getElem?_contribute]
  cases hk : m[k]? with
  | none => simp
  | some s =>
    by_cases htarget : c.target = k
    · simp [htarget, LookaheadSet.hasEmpty_union]
    · simp [htarget]

theorem isSome_contribute :
    (m.contribute c).value[k]?.isSome = m[k]?.isSome := by
  rw [getElem?_contribute]
  split <;> simp

theorem Sorted.contribute (h : m.Sorted) (c : Contribution) : (m.contribute c).value.Sorted := by
  intro k s hs
  rw [getElem?_contribute] at hs
  split at hs
  · obtain ⟨s', hs', rfl⟩ := Option.map_eq_some_iff.1 hs
    exact (h k s' hs').union
  · exact h k s hs

/-! ## All contributions -/

theorem value_contributeAll (m : LookaheadMap) (cs : List Contribution) :
    (m.contributeAll cs).value = cs.foldl (fun m c => (m.contribute c).value) m :=
  Growth.value_each contribute m cs

/-- A set that no contribution is meant for stays as it is. -/
theorem getElem?_contributeAll_of_ne (h : ∀ c ∈ cs, c.target ≠ k) :
    (m.contributeAll cs).value[k]? = m[k]? := by
  rw [value_contributeAll]
  induction cs generalizing m with
  | nil => rfl
  | cons c cs ih =>
    obtain ⟨hc, hcs⟩ := List.forall_mem_cons.1 h
    rw [List.foldl_cons, ih hcs, getElem?_contribute, if_neg hc]

theorem isSome_contributeAll :
    (m.contributeAll cs).value[k]?.isSome = m[k]?.isSome := by
  rw [value_contributeAll]
  induction cs generalizing m with
  | nil => rfl
  | cons c cs ih => rw [List.foldl_cons, ih, isSome_contribute]

theorem has_contributeAll :
    (m.contributeAll cs).value.Has k x ↔
      m.Has k x ∨ m[k]?.isSome = true ∧ ∃ c ∈ cs, c.target = k ∧ x ∈ c.part.terminals := by
  rw [value_contributeAll]
  induction cs generalizing m with
  | nil => simp
  | cons c cs ih =>
    rw [List.foldl_cons, ih, has_contribute, isSome_contribute, List.exists_mem_cons_iff]
    refine ⟨?_, ?_⟩
    · rintro ((h | ⟨hk, h⟩) | ⟨hk, h⟩)
      · exact .inl h
      · exact .inr ⟨hk, .inl h⟩
      · exact .inr ⟨hk, .inr h⟩
    · rintro (h | ⟨hk, h | h⟩)
      · exact .inl (.inl h)
      · exact .inl (.inr ⟨hk, h⟩)
      · exact .inr ⟨hk, h⟩

theorem hasEmpty_contributeAll :
    (m.contributeAll cs).value.HasEmpty k ↔
      m.HasEmpty k ∨ m[k]?.isSome = true ∧ ∃ c ∈ cs, c.target = k ∧ c.part.hasEmpty = true := by
  rw [value_contributeAll]
  induction cs generalizing m with
  | nil => simp
  | cons c cs ih =>
    rw [List.foldl_cons, ih, hasEmpty_contribute, isSome_contribute, List.exists_mem_cons_iff]
    refine ⟨?_, ?_⟩
    · rintro ((h | ⟨hk, h⟩) | ⟨hk, h⟩)
      · exact .inl h
      · exact .inr ⟨hk, .inl h⟩
      · exact .inr ⟨hk, .inr h⟩
    · rintro (h | ⟨hk, h | h⟩)
      · exact .inl (.inl h)
      · exact .inl (.inr ⟨hk, h⟩)
      · exact .inr ⟨hk, h⟩

theorem Sorted.contributeAll (h : m.Sorted) (cs : List Contribution) :
    (m.contributeAll cs).value.Sorted := by
  rw [value_contributeAll]
  induction cs generalizing m with
  | nil => exact h
  | cons c cs ih => exact ih (h.contribute c)

/-! ## Growth -/

/-- The number of elements in the set of a symbol. -/
def sizeAt (m : LookaheadMap) (k : Symbol) : Nat :=
  (m[k]?.map LookaheadSet.size).getD 0

/-- The number of elements in the sets of the given symbols. -/
def sizeOver (keys : List Symbol) (m : LookaheadMap) : Nat :=
  (keys.map m.sizeAt).sum

theorem sizeOver_le {keys : List Symbol} {bound : Nat} (h : ∀ k ∈ keys, m.sizeAt k ≤ bound) :
    m.sizeOver keys ≤ keys.length * bound := by
  have hsum := List.sum_le_card_nsmul (keys.map m.sizeAt) bound (by simpa using h)
  simpa [sizeOver] using hsum

theorem sizeAt_le {bound : Nat} (h : ∀ s, m[k]? = some s → s.size ≤ bound) :
    m.sizeAt k ≤ bound := by
  unfold sizeAt
  cases hs : m[k]? with
  | none => exact Nat.zero_le bound
  | some s => exact h s hs

/-- If all sets belong to given symbols, then a contribution reports exactly whether these grew. -/
theorem exact_contribute {keys : List Symbol} (m : LookaheadMap)
    (h : m[c.target]?.isSome = true → c.target ∈ keys) :
    Growth.Exact (sizeOver keys) m (m.contribute c) := by
  cases hsome : m[c.target]? with
  | none =>
    have hstill : m.contribute c = .still m := by simp [contribute, hsome]
    exact hstill ▸ .still _ _
  | some s =>
    have hgrew : (m.contribute c).grew = (s.union c.part).grew := by simp [contribute, hsome]
    have hunion : Growth.Exact LookaheadSet.size s (s.union c.part) :=
      LookaheadSet.exact_union s c.part
    refine ⟨?_, ?_⟩
    · intro hstays
      rw [hgrew] at hstays
      refine Std.ExtTreeMap.ext_getElem? fun k => ?_
      rw [getElem?_contribute]
      split
      · next heq => simp [← heq, hsome, hunion.same hstays]
      · rfl
    · intro hgrows
      rw [hgrew] at hgrows
      have htarget : sizeAt m c.target = s.size := by simp [sizeAt, hsome]
      have hat : ∀ k, sizeAt (m.contribute c).value k =
          if c.target = k then (s.union c.part).value.size else sizeAt m k := by
        intro k
        rw [sizeAt, getElem?_contribute]
        split
        · next heq => simp [← heq, hsome]
        · rfl
      refine List.sum_lt_sum _ _ (fun k _ => ?_) ⟨c.target, h (by simp [hsome]), ?_⟩
      · rw [hat]
        split
        · next heq => rw [← heq, htarget]; exact hunion.size_le
        · exact Nat.le_refl _
      · rw [hat, htarget, if_pos rfl]
        exact hunion.larger hgrows

theorem exact_contributeAll {keys : List Symbol} {m : LookaheadMap}
    (h : ∀ c ∈ cs, m[c.target]?.isSome = true → c.target ∈ keys) :
    Growth.Exact (sizeOver keys) m (m.contributeAll cs) := by
  -- No contribution adds a set, so the condition stays true on the way.
  refine .each_of_keeps (P := fun m' => ∀ k : Symbol, m'[k]?.isSome = m[k]?.isSome) ?_ ?_
    fun _ => rfl
  · exact fun m' c _ hm' k => isSome_contribute.trans (hm' k)
  · exact fun m' c hc hm' => exact_contribute m' (hm' c.target ▸ h c hc)

end Predictive.LookaheadMap
