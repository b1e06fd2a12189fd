-- SUMMARY: Lookahead sets as sets: members, order, and exact reports of growth.
import Mathlib.Data.List.Perm.Subperm
import Mathlib.Data.List.Sort
import Predictive.Lookahead.Set
import Predictive.Proofs.Lookahead.Growth

/-!
# Members of lookahead sets

What the operations of `Lookahead/Set.lean` do to the terminals of a set and to its empty string.
The members do not depend on the order of the list, but the number of them does: only ascending
lists are known to be without repetitions.
-/

namespace Predictive.LookaheadSet

variable {s t : LookaheadSet} {x y : Symbol}

/-- The terminals ascend by ID, so that none of them occurs twice. -/
def Sorted (s : LookaheadSet) : Prop := s.terminals.Pairwise (· < ·)

/-- Sets in ascending order with the same elements are equal. -/
theorem Sorted.eq_of_mem (hs : s.Sorted) (ht : t.Sorted) (hempty : s.hasEmpty = t.hasEmpty)
    (hmem : ∀ y, y ∈ s.terminals ↔ y ∈ t.terminals) : s = t := by
  have : Std.Irrefl (fun x y : Symbol => x < y) := ⟨fun x => Nat.lt_irrefl x.id⟩
  have : Std.Antisymm (fun x y : Symbol => x < y) :=
    ⟨fun x y hxy hyx => absurd hxy (Nat.lt_asymm hyx)⟩
  have hterminals : s.terminals = t.terminals := List.Pairwise.eq_of_mem_iff hs ht hmem
  cases s
  cases t
  simp_all

/-- A set has no more terminals than a list that has them all. -/
theorem Sorted.length_le {xs : List Symbol} (h : s.Sorted) (hsub : s.terminals ⊆ xs) :
    s.terminals.length ≤ xs.length := by
  have hnodup : s.terminals.Nodup :=
    List.Pairwise.imp (fun hlt heq => Nat.ne_of_lt hlt (congrArg Symbol.id heq)) h
  exact (hnodup.subperm hsub).length_le

/-! ## Insertion into a list -/

theorem mem_insertSorted {xs : List Symbol} :
    y ∈ (insertSorted x xs).value ↔ y = x ∨ y ∈ xs := by
  induction xs with
  | nil => simp [insertSorted]
  | cons z zs ih =>
    rw [insertSorted]
    cases hcmp : compare x z with
    | lt => simp
    | eq =>
      have hxz : x = z := Std.LawfulEqOrd.eq_of_compare hcmp
      simp [Growth.still, hxz]
    | gt =>
      rw [List.mem_cons, List.mem_cons, ih]
      exact or_left_comm

theorem exact_insertSorted (x : Symbol) (xs : List Symbol) :
    Growth.Exact List.length xs (insertSorted x xs) := by
  induction xs with
  | nil => exact ⟨by simp [insertSorted], by simp [insertSorted]⟩
  | cons z zs ih =>
    unfold insertSorted
    split
    · exact ⟨by simp, by simp⟩
    · exact .still _ _
    · refine ⟨fun hgrew => ?_, fun hgrew => ?_⟩
      · simp [ih.same hgrew]
      · simpa using ih.larger hgrew

theorem pairwise_insertSorted {xs : List Symbol} (h : xs.Pairwise (· < ·)) :
    (insertSorted x xs).value.Pairwise (· < ·) := by
  induction xs with
  | nil => simp [insertSorted]
  | cons z zs ih =>
    rw [List.pairwise_cons] at h
    unfold insertSorted
    split
    · next hlt =>
      have hxz : x < z := Nat.compare_eq_lt.1 hlt
      refine List.pairwise_cons.2 ⟨?_, List.pairwise_cons.2 h⟩
      intro y hy
      rcases List.mem_cons.1 hy with rfl | hy
      · exact hxz
      · exact Nat.lt_trans hxz (h.1 y hy)
    · exact List.pairwise_cons.2 h
    · next hgt =>
      have hzx : z < x := Nat.compare_eq_gt.1 hgt
      refine List.pairwise_cons.2 ⟨?_, ih h.2⟩
      intro y hy
      rcases mem_insertSorted.1 hy with rfl | hy
      · exact hzx
      · exact h.1 y hy

/-! ## Looking up in a list -/

/-- In an ascending list nothing is missed by stopping at the first greater symbol. -/
theorem search_iff {xs : List Symbol} (h : xs.Pairwise (· < ·)) : search x xs = true ↔ x ∈ xs := by
  induction xs with
  | nil => simp [search]
  | cons z zs ih =>
    rw [search, List.mem_cons]
    cases hcmp : compare x z with
    | lt =>
      have hxz : x < z := Nat.compare_eq_lt.1 hcmp
      refine iff_of_false Bool.false_ne_true ?_
      rintro (rfl | hx)
      · exact Nat.lt_irrefl _ hxz
      · exact Nat.lt_asymm hxz (List.rel_of_pairwise_cons h hx)
    | eq => exact iff_of_true rfl (.inl (Std.LawfulEqOrd.eq_of_compare hcmp))
    | gt =>
      have hzx : z < x := Nat.compare_eq_gt.1 hcmp
      have hne : x ≠ z := fun heq => Nat.lt_irrefl z.id (heq ▸ hzx)
      exact (ih (List.pairwise_cons.1 h).2).trans (or_iff_right hne).symm

/-! ## Operations on sets -/

theorem Sorted.contains_iff (h : s.Sorted) : s.contains x = true ↔ x ∈ s.terminals :=
  search_iff h

theorem hasEmpty_insert (s : LookaheadSet) (x : Symbol) :
    (s.insert x).value.hasEmpty = s.hasEmpty := rfl

theorem mem_insert : y ∈ (s.insert x).value.terminals ↔ y = x ∨ y ∈ s.terminals :=
  mem_insertSorted

theorem Sorted.insert (h : s.Sorted) (x : Symbol) : (s.insert x).value.Sorted :=
  pairwise_insertSorted h

theorem hasEmpty_unionTerminals : (s.unionTerminals t).value.hasEmpty = s.hasEmpty := by
  rw [unionTerminals, Growth.value_each]
  induction t.terminals generalizing s with
  | nil => rfl
  | cons x xs ih => exact ih

theorem mem_unionTerminals :
    y ∈ (s.unionTerminals t).value.terminals ↔ y ∈ s.terminals ∨ y ∈ t.terminals := by
  rw [unionTerminals, Growth.value_each]
  induction t.terminals generalizing s with
  | nil => simp
  | cons x xs ih =>
    rw [List.foldl_cons, ih, mem_insert, List.mem_cons]
    rw [or_assoc, or_left_comm]

theorem Sorted.unionTerminals (h : s.Sorted) : (s.unionTerminals t).value.Sorted := by
  rw [LookaheadSet.unionTerminals, Growth.value_each]
  induction t.terminals generalizing s with
  | nil => exact h
  | cons x xs ih => exact ih (h.insert x)

theorem hasEmpty_union : (s.union t).value.hasEmpty = (s.hasEmpty || t.hasEmpty) := by
  simp [union, Growth.andThen, addEmpty, hasEmpty_unionTerminals]

theorem mem_union : y ∈ (s.union t).value.terminals ↔ y ∈ s.terminals ∨ y ∈ t.terminals :=
  mem_unionTerminals

theorem Sorted.union (h : s.Sorted) : (s.union t).value.Sorted :=
  h.unionTerminals

/-- A set with the empty string is what its terminals add to the empty string. -/
theorem Sorted.epsilon_unionTerminals (h : s.Sorted) (hempty : s.hasEmpty = true) :
    (epsilon.unionTerminals s).value = s := by
  have hsorted : epsilon.Sorted := .nil
  refine hsorted.unionTerminals.eq_of_mem h ?_ fun y => ?_
  · rw [hasEmpty_unionTerminals, hempty, epsilon]
  · simp [mem_unionTerminals, epsilon]

theorem sorted_empty : empty.Sorted := .nil

theorem sorted_singleton (x : Symbol) : (singleton x).Sorted := List.pairwise_singleton _ x

/-! ## Growth -/

theorem exact_insert (s : LookaheadSet) (x : Symbol) : Growth.Exact size s (s.insert x) := by
  have hlist : Growth.Exact List.length s.terminals (insertSorted x s.terminals) :=
    exact_insertSorted x s.terminals
  refine ⟨?_, ?_⟩
  · intro hgrew
    simp [insert, hlist.same hgrew]
  · intro hgrew
    simpa [insert, size] using hlist.larger hgrew

theorem exact_addEmpty (s : LookaheadSet) (hasEmpty : Bool) :
    Growth.Exact size s (s.addEmpty hasEmpty) := by
  obtain ⟨had, terminals⟩ := s
  refine ⟨?_, ?_⟩
  · cases had <;> cases hasEmpty <;> simp [addEmpty]
  · cases had <;> cases hasEmpty <;> simp [addEmpty, size]

theorem exact_unionTerminals (s t : LookaheadSet) :
    Growth.Exact size s (s.unionTerminals t) :=
  .each fun s x _ => exact_insert s x

theorem exact_union (s t : LookaheadSet) : Growth.Exact size s (s.union t) :=
  (exact_unionTerminals s t).andThen (exact_addEmpty _ _)

end Predictive.LookaheadSet
