-- SUMMARY: Membership laws of symbol sets: what each operation does to the members, whatever the width.
import Predictive.Symbol.Bits

/-!
# Members of symbol sets

The operations of `Symbol/Bits.lean` work on a row of bits. Here each of them is described by what
it does to `contains`, which is all that the rest of the theory looks at. Together with the width,
which insertions below it do not change, the members are the whole set.
-/

namespace Predictive.SymbolSet

@[simp] theorem contains_empty (x : Symbol) : empty.contains x = false := by
  simp [contains, empty]

theorem contains_filled (width : Nat) (present : Bool) (x : Symbol) :
    (filled width present).contains x = (present && decide (x.id < width)) := by
  by_cases h : x.id < width <;> simp [contains, filled, h]

@[simp] theorem contains_filled_false (width : Nat) (x : Symbol) :
    (filled width false).contains x = false := contains_filled width false x

@[simp] theorem contains_widen (s : SymbolSet) (width : Nat) (x : Symbol) :
    (s.widen width).contains x = s.contains x := by
  by_cases h : x.id < s.bits.size
  · simp [contains, widen, Array.getElem?_append, h]
  · have hs : s.bits[x.id]? = none := by simp [Nat.le_of_not_lt h]
    have hpad : (Array.replicate (width - s.width) false)[x.id - s.bits.size]?.getD false =
        false := by
      by_cases hx : x.id - s.bits.size < width - s.width <;> simp [hx]
    simp only [contains, widen, Array.getElem?_append, h, ↓reduceIte, hs, Option.getD_none, hpad]

/-- The widened row has a place for the symbol, so that setting it is never lost. -/
theorem lt_size_widen (s : SymbolSet) (n : Nat) : n < (s.widen (n + 1)).bits.size := by
  simp only [widen, width, Array.size_append, Array.size_replicate]
  omega

theorem contains_insert (s : SymbolSet) (x y : Symbol) :
    (s.insert x).contains y = (decide (y = x) || s.contains y) := by
  by_cases h : y = x
  · subst h
    simp [contains, insert, lt_size_widen]
  · have hid : x.id ≠ y.id := fun hid => h (by cases x; cases y; simp_all)
    have hwide := contains_widen s (x.id + 1) y
    simp only [contains] at hwide
    simp [contains, insert, hid, h, hwide]

theorem contains_erase (s : SymbolSet) (x y : Symbol) :
    (s.erase x).contains y = (decide (y ≠ x) && s.contains y) := by
  by_cases h : y = x
  · subst h
    by_cases hid : y.id < s.bits.size <;> simp [contains, erase, hid]
  · have hid : x.id ≠ y.id := fun hid => h (by cases x; cases y; simp_all)
    simp [contains, erase, hid, h]

theorem contains_foldl_insert (xs : List Symbol) (s : SymbolSet) (y : Symbol) :
    (xs.foldl insert s).contains y = true ↔ y ∈ xs ∨ s.contains y = true := by
  induction xs generalizing s with
  | nil => simp
  | cons x xs ih =>
    simp only [List.foldl_cons, ih, contains_insert, List.mem_cons, Bool.or_eq_true,
      decide_eq_true_eq]
    rw [or_assoc, or_left_comm]

theorem lt_width_of_contains {s : SymbolSet} {x : Symbol} (h : s.contains x = true) :
    x.id < s.width := by
  refine Nat.lt_of_not_le fun hx => ?_
  have hnone : s.bits[x.id]? = none := Array.getElem?_eq_none hx
  simp [contains, hnone] at h

/-- Only symbols below the width are members, so the list of members misses none. -/
theorem mem_toList {s : SymbolSet} {x : Symbol} : x ∈ s.toList ↔ s.contains x = true := by
  simp only [toList, List.mem_filter, List.mem_map, List.mem_range, and_iff_right_iff_imp]
  exact fun h => ⟨x.id, lt_width_of_contains h, rfl⟩

/-- The members come in the order of their IDs. -/
theorem pairwise_toList (s : SymbolSet) : s.toList.Pairwise fun x y => x.id < y.id := by
  have hall : ((List.range s.width).map Symbol.mk).Pairwise fun x y => x.id < y.id :=
    List.pairwise_map.2 List.pairwise_lt_range
  exact hall.filter _

/-! ## Combined sets -/

theorem contains_ofList {xs : List Symbol} {x : Symbol} :
    (ofList xs).contains x = true ↔ x ∈ xs := by
  rw [ofList, contains_foldl_insert, contains_empty]
  simp

theorem contains_union (s t : SymbolSet) (x : Symbol) :
    (s.union t).contains x = (s.contains x || t.contains x) := by
  rw [Bool.eq_iff_iff, union, contains_foldl_insert, contains_widen, mem_toList, Bool.or_eq_true]
  exact or_comm

theorem contains_foldl_erase (xs : List Symbol) (s : SymbolSet) (y : Symbol) :
    (xs.foldl erase s).contains y = true ↔ y ∉ xs ∧ s.contains y = true := by
  induction xs generalizing s with
  | nil => simp
  | cons x xs ih =>
    rw [List.foldl_cons, ih, contains_erase, List.mem_cons, not_or, Bool.and_eq_true,
      decide_eq_true_eq, and_assoc, and_left_comm]

theorem contains_diff (s t : SymbolSet) (x : Symbol) :
    (s.diff t).contains x = true ↔ s.contains x = true ∧ t.contains x = false := by
  rw [diff, contains_foldl_erase, mem_toList, Bool.not_eq_true]
  exact and_comm

theorem isEmpty_iff {s : SymbolSet} : s.isEmpty = true ↔ ∀ x, s.contains x = false := by
  simp only [isEmpty, Bool.not_eq_true', Array.any_eq_false, id, Bool.not_eq_true]
  refine ⟨fun h x => ?_, fun h i hi => ?_⟩
  · by_cases hx : x.id < s.bits.size
    · simpa [contains, hx] using h x.id hx
    · simp [contains, hx]
  · simpa [contains, hi] using h ⟨i⟩

/-! ## Widths -/

theorem eq_of_contains {s t : SymbolSet} (hwidth : s.width = t.width)
    (h : ∀ x, s.contains x = t.contains x) : s = t := by
  obtain ⟨bits⟩ := s
  obtain ⟨bits'⟩ := t
  rw [SymbolSet.mk.injEq]
  refine Array.ext hwidth fun i hi hi' => ?_
  simpa [contains, hi, hi'] using h ⟨i⟩

theorem width_filled (width : Nat) (present : Bool) :
    (filled width present).width = width := by
  simp [SymbolSet.width, filled]

theorem width_widen (s : SymbolSet) (width : Nat) :
    (s.widen width).width = max s.width width := by
  simp only [widen, SymbolSet.width, Array.size_append, Array.size_replicate]
  omega

theorem width_insert_eq_max (s : SymbolSet) (x : Symbol) :
    (s.insert x).width = max s.width (x.id + 1) := by
  have hwide := width_widen s (x.id + 1)
  simpa only [insert, width, Array.size_setIfInBounds] using hwide

theorem width_insert {s : SymbolSet} {x : Symbol} (h : x.id < s.width) :
    (s.insert x).width = s.width := by
  rw [width_insert_eq_max]
  exact Nat.max_eq_left h

theorem width_foldl_insert {xs : List Symbol} {s : SymbolSet} (h : ∀ x ∈ xs, x.id < s.width) :
    (xs.foldl insert s).width = s.width := by
  induction xs generalizing s with
  | nil => rfl
  | cons x xs ih =>
    have hx : (s.insert x).width = s.width := width_insert (h x (by simp))
    rw [List.foldl_cons, ih fun y hy => hx ▸ h y (by simp [hy]), hx]

/-- Each symbol is given a place. -/
theorem width_foldl_insert_eq_foldl_max (xs : List Symbol) (s : SymbolSet) :
    (xs.foldl insert s).width = xs.foldl (fun width x => max width (x.id + 1)) s.width := by
  induction xs generalizing s with
  | nil => rfl
  | cons x xs ih => rw [List.foldl_cons, List.foldl_cons, ih, width_insert_eq_max]

theorem width_erase (s : SymbolSet) (x : Symbol) : (s.erase x).width = s.width := by
  simp [erase, width]

theorem width_foldl_erase (xs : List Symbol) (s : SymbolSet) :
    (xs.foldl erase s).width = s.width := by
  induction xs generalizing s with
  | nil => rfl
  | cons x xs ih => rw [List.foldl_cons, ih, width_erase]

/-- The row is widened before the members of the other set come in, and has a place for all of
    them then. -/
theorem width_union (s t : SymbolSet) : (s.union t).width = max s.width t.width := by
  have hplace : ∀ x ∈ t.toList, x.id < (s.widen t.width).width := fun x hx => by
    rw [width_widen]
    exact Nat.lt_of_lt_of_le (lt_width_of_contains (mem_toList.1 hx)) (Nat.le_max_right _ _)
  rw [union, width_foldl_insert hplace, width_widen]

theorem width_diff (s t : SymbolSet) : (s.diff t).width = s.width :=
  width_foldl_erase t.toList s

end Predictive.SymbolSet
