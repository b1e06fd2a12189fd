-- SUMMARY: A search by halves finds the place of a terminal, and every search that does so serves insertion equally well.
import Predictive.Proofs.Lookahead.Set

/-!
# Places in ascending lists

A set can be searched for the place of a terminal before the terminal is looked up or put there. In
an ascending list a symbol has a single place, so it does not matter how the search goes about it.
In any other list the answer of a search means nothing, and so whoever searches depends on the
order being kept.
-/

namespace Predictive.LookaheadSet

/-- What a search for a symbol answers. -/
inductive Place where
  | found (i : Nat)
  | missing (i : Nat)
deriving DecidableEq, Repr

/-- The place in a list that goes on to the left by `n` more elements. -/
def Place.shift (n : Nat) : Place → Place
  | found i => found (n + i)
  | missing i => missing (n + i)

/-- The symbol is found at the place, or it is missing and belongs there. -/
inductive Located (x : Symbol) (xs : List Symbol) : Place → Prop
  | found {i : Nat} (h : xs[i]? = some x) : Located x xs (.found i)
  | missing {before after : List Symbol} (hxs : xs = before ++ after)
      (hbefore : ∀ y ∈ before, y < x) (hafter : ∀ y ∈ after, x < y) :
      Located x xs (.missing before.length)

/-- A search that finds the place of each symbol as long as the list ascends. -/
def Locates (locate : Symbol → List Symbol → Place) : Prop :=
  ∀ x xs, xs.Pairwise (· < ·) → Located x xs (locate x xs)

variable {x y : Symbol} {xs left right : List Symbol} {p : Place} {s : LookaheadSet}

/-! ## Halves -/

/-- Compare with the symbol in the middle, and go on in one of the halves. -/
def bisect (x : Symbol) (xs : List Symbol) : Place :=
  if hxs : xs = [] then .missing 0
  else
    have hhalf : xs.length / 2 < xs.length :=
      Nat.div_lt_self (List.length_pos_iff.2 hxs) (by decide)
    match compare x xs[xs.length / 2] with
    | .lt => bisect x (xs.take (xs.length / 2))
    | .eq => .found (xs.length / 2)
    | .gt => (bisect x (xs.drop (xs.length / 2 + 1))).shift (xs.length / 2 + 1)
termination_by xs.length
decreasing_by
  · rwa [List.length_take_of_le (Nat.le_of_lt hhalf)]
  · rw [List.length_drop]
    omega

theorem Located.append_left (h : Located x left p) (hright : ∀ y ∈ right, x < y) :
    Located x (left ++ right) p := by
  cases h with
  | found h => exact .found (List.getElem?_append_left (List.getElem?_eq_some_iff.1 h).1 ▸ h)
  | @missing before after hleft hbefore hafter =>
    refine .missing (by rw [hleft, List.append_assoc]) hbefore fun y hy => ?_
    exact (List.mem_append.1 hy).elim (hafter y) (hright y)

theorem Located.append_right (h : Located x right p) (hleft : ∀ y ∈ left, y < x) :
    Located x (left ++ right) (p.shift left.length) := by
  cases h with
  | found h =>
    exact .found (by rwa [List.getElem?_append_right (by omega), Nat.add_sub_cancel_left])
  | @missing before after hright hbefore hafter =>
    rw [Place.shift, ← List.length_append]
    refine .missing (by rw [hright, List.append_assoc]) (fun y hy => ?_) hafter
    exact (List.mem_append.1 hy).elim (hleft y) (hbefore y)

theorem lt_of_mem_drop {i : Nat} (h : xs.Pairwise (· < ·)) (hi : i < xs.length) (hx : x < xs[i]) :
    ∀ y ∈ xs.drop i, x < y := by
  have hdrop : (xs.drop i).Pairwise (· < ·) := h.sublist (List.drop_sublist i xs)
  rw [List.drop_eq_getElem_cons hi] at hdrop ⊢
  rintro y (_ | ⟨_, hy⟩)
  · exact hx
  · exact Nat.lt_trans hx (List.rel_of_pairwise_cons hdrop hy)

theorem lt_of_mem_take {i : Nat} (h : xs.Pairwise (· < ·)) (hi : i < xs.length) (hx : xs[i] < x) :
    ∀ y ∈ xs.take (i + 1), y < x := by
  have htake : (xs.take (i + 1)).Pairwise (· < ·) := h.sublist (List.take_sublist (i + 1) xs)
  rw [List.take_succ_eq_append_getElem hi] at htake ⊢
  intro y hy
  rcases List.mem_append.1 hy with hy | hy
  · exact Nat.lt_trans ((List.pairwise_append.1 htake).2.2 y hy _ (by simp)) hx
  · exact List.mem_singleton.1 hy ▸ hx

/-- The half that is left out lies on the other side of the symbol. -/
theorem locates_bisect : Locates bisect := by
  intro x xs h
  fun_induction bisect x xs with
  | case1 => exact .missing (List.append_nil []).symm nofun nofun
  | case2 xs hxs hhalf hcmp ih =>
    have hmiddle : x < xs[xs.length / 2] := Nat.compare_eq_lt.1 hcmp
    have hleft := ih (h.sublist (List.take_sublist _ xs))
    have hlocated := hleft.append_left (lt_of_mem_drop h hhalf hmiddle)
    rwa [List.take_append_drop] at hlocated
  | case3 xs hxs hhalf hcmp =>
    have hmiddle : x = xs[xs.length / 2] := Std.LawfulEqOrd.eq_of_compare hcmp
    exact .found (by rw [List.getElem?_eq_getElem hhalf, hmiddle])
  | case4 xs hxs hhalf hcmp ih =>
    have hmiddle : xs[xs.length / 2] < x := Nat.compare_eq_gt.1 hcmp
    have hright := ih (h.sublist (List.drop_sublist _ xs))
    have hlocated := hright.append_right (lt_of_mem_take h hhalf hmiddle)
    rwa [List.length_take_of_le hhalf, List.take_append_drop] at hlocated

/-! ## Looking up and putting in -/

/-- Look for a terminal by a search. -/
def containsBy (locate : Symbol → List Symbol → Place) (s : LookaheadSet) (x : Symbol) : Bool :=
  match locate x s.terminals with
  | .found _ => true
  | .missing _ => false

/-- Search for the place of a terminal, and put it there unless it is found. -/
def insertBy (locate : Symbol → List Symbol → Place) (s : LookaheadSet) (x : Symbol) :
    Growth LookaheadSet :=
  match locate x s.terminals with
  | .found _ => .still s
  | .missing i => ⟨{ s with terminals := s.terminals.insertIdx i x }, true⟩

/-- Add the terminals of `t`, each at the place that a search finds for it. -/
def unionBy (locate : Symbol → List Symbol → Place) (s t : LookaheadSet) : Growth LookaheadSet :=
  Growth.each (insertBy locate) s t.terminals

theorem Located.mem_iff (h : Located x xs p) : x ∈ xs ↔ ∃ i, p = .found i := by
  cases h with
  | found h => exact iff_of_true (List.mem_of_getElem? h) ⟨_, rfl⟩
  | missing hxs hbefore hafter =>
    refine iff_of_false (fun hx => ?_) (by simp)
    rcases List.mem_append.1 (hxs ▸ hx) with hx | hx
    · exact Nat.lt_irrefl _ (hbefore x hx)
    · exact Nat.lt_irrefl _ (hafter x hx)

variable {locate : Symbol → List Symbol → Place}

theorem Locates.containsBy_eq (hlocate : Locates locate) (h : s.Sorted) (x : Symbol) :
    containsBy locate s x = s.contains x := by
  rw [Bool.eq_iff_iff, h.contains_iff, (hlocate x s.terminals h).mem_iff, containsBy]
  cases locate x s.terminals <;> simp

theorem insertIdx_append {α : Type} (before after : List α) (x : α) :
    (before ++ after).insertIdx before.length x = before ++ x :: after := by
  induction before with
  | nil => rfl
  | cons y ys ih =>
    rw [List.cons_append, List.length_cons, List.insertIdx_succ_cons, ih, List.cons_append]

/-- A symbol between lesser and greater ones keeps them in order. -/
theorem pairwise_between {before after : List Symbol}
    (h : (before ++ after).Pairwise (· < ·)) (hbefore : ∀ y ∈ before, y < x)
    (hafter : ∀ y ∈ after, x < y) : (before ++ x :: after).Pairwise (· < ·) := by
  obtain ⟨hleft, hright, hacross⟩ := List.pairwise_append.1 h
  refine List.pairwise_append.2 ⟨hleft, List.pairwise_cons.2 ⟨hafter, hright⟩, ?_⟩
  rintro y hy z (_ | ⟨_, hz⟩)
  · exact hbefore y hy
  · exact hacross y hy z hz

/-- In its place a terminal keeps the list ascending, and there is only one ascending list with the
    same elements. -/
theorem Locates.insertBy_eq (hlocate : Locates locate) (h : s.Sorted) (x : Symbol) :
    insertBy locate s x = s.insert x := by
  have hlocated := hlocate x s.terminals h
  unfold insertBy
  generalize locate x s.terminals = p at hlocated
  cases hlocated with
  | found hx =>
    refine Growth.Exact.eq_of_value (.still size s) (exact_insert s x) ?_
    refine h.eq_of_mem (h.insert x) (hasEmpty_insert s x) fun y => ?_
    rw [mem_insert, or_iff_right_of_imp]
    rintro rfl
    exact List.mem_of_getElem? hx
  | @missing before after hxs hbefore hafter =>
    have hplaced : s.terminals.insertIdx before.length x = before ++ x :: after := by
      rw [hxs, insertIdx_append]
    dsimp only
    rw [hplaced]
    have hexact : Growth.Exact size s ⟨{ s with terminals := before ++ x :: after }, true⟩ :=
      ⟨nofun, fun _ => by simp [size, hxs]⟩
    refine hexact.eq_of_value (exact_insert s x) ?_
    have hsorted : Sorted { s with terminals := before ++ x :: after } :=
      pairwise_between (hxs ▸ h) hbefore hafter
    refine hsorted.eq_of_mem (h.insert x) (hasEmpty_insert s x) fun y => ?_
    rw [mem_insert, hxs]
    simp only [List.mem_append, List.mem_cons, or_left_comm]

/-- The order is kept from each terminal to the next one, and with it what a search is worth. -/
theorem Locates.unionBy_eq (hlocate : Locates locate) (h : s.Sorted) (t : LookaheadSet) :
    unionBy locate s t = s.unionTerminals t := by
  rw [unionBy, unionTerminals]
  exact Growth.each_congr (fun _ x hs => hs.insert x) (fun _ x hs => hlocate.insertBy_eq hs x) h

end Predictive.LookaheadSet
