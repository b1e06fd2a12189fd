-- SUMMARY: Symbol sets are finite sets of symbols after every history of operations, and their widths obey laws of their own.
import Mathlib.Data.Finset.Card
import Mathlib.Data.Finset.Image
import Predictive.Proofs.Registers
import Predictive.Proofs.Symbol.Bits

/-!
# Symbol sets as finite sets

The same history of operations can be read in several ways: as changes of rows of bits, of finite
sets, or of nothing but widths. What the rows show of their members is what the finite sets have,
and what remains of a row is its width. The laws of unions hold of the rows themselves, since a
union is as wide as the wider set.
-/

namespace Predictive.SymbolSet

/-! ## Histories -/

/-- An operation on one of several sets, which are told apart by numbers. -/
inductive Edit where
  | fill (target width : Nat) (present : Bool)
  | collect (target : Nat) (xs : List Symbol)
  | set (target : Nat) (x : Symbol) (present : Bool)
  | union (target source : Nat)
  | diff (target source : Nat)
deriving DecidableEq, Repr

/-- The set that is changed. -/
def Edit.target : Edit → Nat
  | fill target _ _ => target
  | collect target _ => target
  | set target _ _ => target
  | union target _ => target
  | diff target _ => target

/-- What the operations are on values of another kind in the place of sets. -/
structure Reading (α : Type) where
  empty : α
  filled : Nat → Bool → α
  ofList : List Symbol → α
  set : α → Symbol → Bool → α
  union : α → α → α
  diff : α → α → α

namespace Reading

variable {α β : Type}

/-- What becomes of the target. -/
def outcome (A : Reading α) (values : Nat → α) : Edit → α
  | .fill _ width present => A.filled width present
  | .collect _ xs => A.ofList xs
  | .set target x present => A.set (values target) x present
  | .union target source => A.union (values target) (values source)
  | .diff target source => A.diff (values target) (values source)

/-- The values after a history that begins with empty sets. -/
def run (A : Reading α) (edits : List Edit) : Nat → α :=
  Registers.run Edit.target A.outcome A.empty edits

/-- The relation holds between the outcomes of every operation in the two readings. -/
structure Respects (A : Reading α) (B : Reading β) (R : α → β → Prop) : Prop where
  empty : R A.empty B.empty
  filled : ∀ width present, R (A.filled width present) (B.filled width present)
  ofList : ∀ xs, R (A.ofList xs) (B.ofList xs)
  set : ∀ {a b}, R a b → ∀ x present, R (A.set a x present) (B.set b x present)
  union : ∀ {a b a' b'}, R a b → R a' b' → R (A.union a a') (B.union b b')
  diff : ∀ {a b a' b'}, R a b → R a' b' → R (A.diff a a') (B.diff b b')

variable {A : Reading α} {B : Reading β} {R : α → β → Prop}

theorem Respects.outcome (h : Respects A B R) {values : Nat → α} {values' : Nat → β}
    (hvalues : ∀ r, R (values r) (values' r)) (e : Edit) :
    R (A.outcome values e) (B.outcome values' e) := by
  cases e with
  | fill target width present => exact h.filled width present
  | collect target xs => exact h.ofList xs
  | set target x present => exact h.set (hvalues target) x present
  | union target source => exact h.union (hvalues target) (hvalues source)
  | diff target source => exact h.diff (hvalues target) (hvalues source)

/-- What every operation respects, every history does. -/
theorem Respects.run (h : Respects A B R) (edits : List Edit) (r : Nat) :
    R (A.run edits r) (B.run edits r) :=
  Registers.run_respects h.empty (fun _ _ hvalues e => h.outcome hvalues e) edits r

end Reading

/-! ## Three readings -/

/-- The operations on rows of bits. -/
def rows : Reading SymbolSet where
  empty := .empty
  filled := .filled
  ofList := .ofList
  set := .set
  union := .union
  diff := .diff

/-- The symbols with IDs below a number. -/
def below (width : Nat) : Finset Symbol := (Finset.range width).image Symbol.mk

/-- The operations of set theory. -/
def members : Reading (Finset Symbol) where
  empty := ∅
  filled width present := if present then below width else ∅
  ofList := List.toFinset
  set xs x present := if present then Insert.insert x xs else xs.erase x
  union xs ys := xs ∪ ys
  diff xs ys := xs \ ys

/-- What the operations do to widths, whatever the members are: only what adds symbols widens. -/
def widths : Reading Nat where
  empty := 0
  filled width _ := width
  ofList xs := xs.foldl (fun width x => max width (x.id + 1)) 0
  set width x present := if present then max width (x.id + 1) else width
  union := max
  diff width _ := width

/-- The row of bits has the members of the finite set. -/
def Represents (s : SymbolSet) (xs : Finset Symbol) : Prop :=
  ∀ x, s.contains x = true ↔ x ∈ xs

theorem mem_below {width : Nat} {x : Symbol} : x ∈ below width ↔ x.id < width := by
  simp only [below, Finset.mem_image, Finset.mem_range]
  refine ⟨?_, fun h => ⟨x.id, h, rfl⟩⟩
  rintro ⟨id, hid, rfl⟩
  exact hid

theorem respects_members : Reading.Respects rows members Represents where
  empty x := by simp [rows, members]
  filled width present x := by
    cases present <;> simp [rows, members, contains_filled, mem_below]
  ofList xs x := by simp [rows, members, contains_ofList]
  set {s xs} h x present y := by
    cases present with
    | false => simp [rows, members, set, contains_erase, h y]
    | true => simp [rows, members, set, contains_insert, h y]
  union {s xs t ys} hs ht x := by simp [rows, members, contains_union, hs x, ht x]
  diff {s xs t ys} hs ht x := by
    simp [rows, members, contains_diff, hs x, ← ht x]

theorem respects_widths : Reading.Respects rows widths fun s width => s.width = width where
  empty := rfl
  filled := width_filled
  ofList xs := width_foldl_insert_eq_foldl_max xs empty
  set {s width} h x present := by
    subst h
    cases present with
    | false => exact width_erase s x
    | true => exact width_insert_eq_max s x
  union {s width t width'} hs ht := by
    subst hs ht
    exact width_union s t
  diff {s width t width'} hs _ := by
    subst hs
    exact width_diff s t

/-! ## What a row shows -/

/-- The members in the order in which a reader comes upon them who goes along the row and names each
    place by a machine word. -/
def readOut (s : SymbolSet) : List (Option Symbol) :=
  (s.bits.toList.zipIdx.filter fun place => place.1).map fun place => Symbol.ofWord? place.2

/-- The row looks like a finite set in all respects but its width. -/
structure Shows (s : SymbolSet) (xs : Finset Symbol) (width : Nat) : Prop where
  width_eq : s.width = width
  contains_iff : ∀ x, s.contains x = true ↔ x ∈ xs
  getElem_iff : ∀ x, s[x] = true ↔ x ∈ xs
  mem_toList_iff : ∀ x, x ∈ s.toList ↔ x ∈ xs
  ascending : s.toList.Pairwise (· < ·)
  count_eq : s.count = xs.card
  isEmpty_iff : s.isEmpty = true ↔ xs = ∅
  /-- No word runs out as long as there are fewer than `2 ^ 32` places. -/
  readOut_eq : s.width < UInt32.size → s.readOut = s.toList.map some

theorem ofWord?_of_lt {id : Nat} (h : id < Symbol.bound) : Symbol.ofWord? id = some ⟨id⟩ := by
  have hlt : id < UInt32.size := Nat.lt_of_lt_of_le h (Nat.sub_le _ _)
  simp [Symbol.ofWord?, Nat.mod_eq_of_lt hlt, h]

theorem zipIdx_bits (s : SymbolSet) :
    s.bits.toList.zipIdx = (List.range s.width).map fun id => (s.contains ⟨id⟩, id) := by
  refine List.ext_getElem (by simp [width]) fun id hid _ => ?_
  have hlt : id < s.bits.size := by simpa using hid
  simp [contains, hlt]

theorem readOut_eq_map_toList {s : SymbolSet} (h : s.width < UInt32.size) :
    s.readOut = s.toList.map some := by
  rw [readOut, zipIdx_bits, toList, List.filter_map, List.filter_map, List.map_map, List.map_map]
  refine List.map_congr_left fun id hid => ?_
  have hlt : id < s.width := List.mem_range.1 (List.mem_filter.1 hid).1
  have hbound : id < Symbol.bound := by
    unfold Symbol.bound
    omega
  exact ofWord?_of_lt hbound

theorem Represents.shows {s : SymbolSet} {xs : Finset Symbol} (h : Represents s xs) :
    Shows s xs s.width where
  width_eq := rfl
  contains_iff := h
  getElem_iff := h
  mem_toList_iff x := mem_toList.trans (h x)
  ascending := pairwise_toList s
  count_eq := by
    have hnodup : s.toList.Nodup :=
      (pairwise_toList s).imp fun hlt heq => Nat.ne_of_lt hlt (congrArg Symbol.id heq)
    rw [count, ← List.toFinset_card_of_nodup hnodup]
    congr 1
    ext x
    rw [List.mem_toFinset, mem_toList, h x]
  isEmpty_iff := by
    rw [SymbolSet.isEmpty_iff, Finset.eq_empty_iff_forall_notMem]
    exact forall_congr' fun x => by rw [← h x, Bool.not_eq_true]
  readOut_eq := readOut_eq_map_toList

theorem shows_run (edits : List Edit) (r : Nat) :
    Shows (rows.run edits r) (members.run edits r) (widths.run edits r) :=
  respects_widths.run edits r ▸ Represents.shows (respects_members.run edits r)

/-- Nothing is in a row besides its members and its width. -/
theorem Shows.eq_iff {s t : SymbolSet} {xs ys : Finset Symbol} {width width' : Nat}
    (hs : Shows s xs width) (ht : Shows t ys width') : s = t ↔ width = width' ∧ xs = ys := by
  rw [← hs.width_eq, ← ht.width_eq]
  constructor
  · rintro rfl
    exact ⟨rfl, Finset.ext fun x => (hs.contains_iff x).symm.trans (ht.contains_iff x)⟩
  · rintro ⟨hwidth, rfl⟩
    refine eq_of_contains hwidth fun x => ?_
    rw [Bool.eq_iff_iff, hs.contains_iff, ht.contains_iff]

/-! ## Laws of unions -/

theorem union_comm (s t : SymbolSet) : s.union t = t.union s := by
  refine eq_of_contains ?_ fun x => ?_
  · rw [width_union, width_union, Nat.max_comm]
  · rw [contains_union, contains_union, Bool.or_comm]

theorem union_assoc (s t u : SymbolSet) : (s.union t).union u = s.union (t.union u) := by
  refine eq_of_contains ?_ fun x => ?_
  · simp only [width_union, Nat.max_assoc]
  · simp only [contains_union, Bool.or_assoc]

theorem union_self (s : SymbolSet) : s.union s = s := by
  refine eq_of_contains ?_ fun x => ?_
  · rw [width_union, Nat.max_self]
  · rw [contains_union, Bool.or_self]

theorem width_le_width_set (s : SymbolSet) (x : Symbol) (present : Bool) :
    s.width ≤ (s.set x present).width := by
  cases present with
  | false => exact Nat.le_of_eq (width_erase s x).symm
  | true => exact width_insert_eq_max s x ▸ Nat.le_max_left _ _

/-! ## Histories of sets -/

/-- After every history the rows of bits show the finite sets that the same history makes, and two
    of them are equal just if they have the same members and the same width. Adding and removing a
    symbol, unions and differences never narrow a row. Unions are commutative, associative and
    idempotent, with the width as a part of the value. -/
theorem shows_finsets :
    (∀ edits r, Shows (rows.run edits r) (members.run edits r) (widths.run edits r)) ∧
    (∀ edits edits' r r', rows.run edits r = rows.run edits' r' ↔
      widths.run edits r = widths.run edits' r' ∧ members.run edits r = members.run edits' r') ∧
    (∀ (s : SymbolSet) x present, s.width ≤ (s.set x present).width) ∧
    (∀ s t : SymbolSet, (s.union t).width = max s.width t.width ∧ (s.diff t).width = s.width) ∧
    (∀ s t : SymbolSet, s.union t = t.union s) ∧
    (∀ s t u : SymbolSet, (s.union t).union u = s.union (t.union u)) ∧
    ∀ s : SymbolSet, s.union s = s := by
  refine ⟨shows_run, fun edits edits' r r' => ?_, width_le_width_set, fun s t => ?_, union_comm,
    union_assoc, union_self⟩
  · exact (shows_run edits r).eq_iff (shows_run edits' r')
  · exact ⟨width_union s t, width_diff s t⟩

/-- The width of a union stays when its members are removed again. -/
theorem shows_finsets_overlapping :
    let edits : List Edit := [.collect 0 [⟨3⟩, ⟨1⟩], .fill 1 2 true, .set 1 ⟨9⟩ true, .union 0 1]
    (rows.run edits 0).width = 10 ∧ members.run edits 0 = {⟨0⟩, ⟨1⟩, ⟨3⟩, ⟨9⟩} ∧
      (rows.run edits 0).readOut = [some ⟨0⟩, some ⟨1⟩, some ⟨3⟩, some ⟨9⟩] ∧
      (rows.run (edits ++ [.diff 0 0]) 0).isEmpty = true ∧
      rows.run (edits ++ [.diff 0 0]) 0 ≠ rows.run [] 0 := by
  intro edits
  obtain ⟨hshows, heq, -⟩ := shows_finsets
  have hwidth : (rows.run edits 0).width = 10 := (hshows edits 0).width_eq.trans (by decide)
  have hmembers : members.run edits 0 = {⟨0⟩, ⟨1⟩, ⟨3⟩, ⟨9⟩} := by decide
  have hlist : (rows.run edits 0).toList = [⟨0⟩, ⟨1⟩, ⟨3⟩, ⟨9⟩] := by decide +kernel
  refine ⟨hwidth, hmembers, ?_, ?_, ?_⟩
  · rw [(hshows edits 0).readOut_eq (hwidth ▸ by decide), hlist]
    rfl
  · exact (hshows _ 0).isEmpty_iff.2 (by decide)
  · exact fun h => absurd ((heq _ _ 0 0).1 h).1 (by decide)

end Predictive.SymbolSet
