-- SUMMARY: After every history of operations a lookahead set has what it received, in ascending order, and nothing else.
import Predictive.Proofs.Lookahead.Bisection
import Predictive.Proofs.Registers

/-!
# Histories of lookahead sets

Several sets are filled by any sequence of insertions and unions. What a set has received is told by
the history alone, and it is all that remains of it: neither the order of the operations nor the way
in which places are searched leaves a trace in the list. The reports of growth, on which the passes
over a grammar rely, are true of all lists, whether they ascend or not.
-/

namespace Predictive.LookaheadSet

/-! ## Histories -/

/-- An operation on one of several sets, which are told apart by numbers. -/
inductive Edit where
  | insert (target : Nat) (x : Symbol)
  | union (target source : Nat)
  | setEmpty (target : Nat) (hasEmpty : Bool)
deriving DecidableEq, Repr

/-- The set that is changed. -/
def Edit.target : Edit → Nat
  | insert target _ => target
  | union target _ => target
  | setEmpty target _ => target

/-- A way in which terminals get into a set. -/
structure Manner where
  insert : LookaheadSet → Symbol → Growth LookaheadSet
  union : LookaheadSet → LookaheadSet → Growth LookaheadSet

namespace Manner

/-- By the operations on sets. -/
def direct : Manner := ⟨LookaheadSet.insert, unionTerminals⟩

/-- By a search for the place of each terminal. -/
def searching (locate : Symbol → List Symbol → Place) : Manner :=
  ⟨insertBy locate, unionBy locate⟩

/-- What becomes of the target. -/
def outcome (m : Manner) (sets : Nat → LookaheadSet) : Edit → LookaheadSet
  | .insert target x => (m.insert (sets target) x).value
  | .union target source => (m.union (sets target) (sets source)).value
  | .setEmpty target hasEmpty => { sets target with hasEmpty := hasEmpty }

/-- The sets after a history that begins with empty ones. -/
def run (m : Manner) (edits : List Edit) : Nat → LookaheadSet :=
  Registers.run Edit.target m.outcome .empty edits

end Manner

/-! ## What a set has received -/

/-- A set has received a terminal if it was inserted there, or came in by a union with a set that
    had received it before. -/
inductive Received : List Edit → Nat → Symbol → Prop
  | inserted {before after : List Edit} {r : Nat} {x : Symbol} :
      Received (before ++ .insert r x :: after) r x
  | passedOn {before after : List Edit} {r source : Nat} {x : Symbol}
      (h : Received before source x) : Received (before ++ .union r source :: after) r x

/-- What the edit sets the empty string of a set to. -/
def Edit.setsEmpty? (r : Nat) : Edit → Option Bool
  | setEmpty target hasEmpty => if target = r then some hasEmpty else none
  | _ => none

/-- What the empty string of a set was set to at last. -/
def lastEmpty (edits : List Edit) (r : Nat) : Bool :=
  (edits.filterMap (Edit.setsEmpty? r)).getLast?.getD false

variable {edits : List Edit} {e : Edit} {r : Nat} {x y : Symbol} {s t : LookaheadSet}

theorem concat_eq_append_cons {before after : List Edit} {f : Edit}
    (h : edits ++ [e] = before ++ f :: after) :
    (edits = before ∧ e = f) ∨ ∃ init, edits = before ++ f :: init := by
  rcases List.eq_nil_or_concat' after with rfl | ⟨init, last, rfl⟩
  · obtain ⟨hbefore, he⟩ := List.append_inj' h rfl
    exact .inl ⟨hbefore, (List.cons.inj he).1⟩
  · rw [← List.cons_append, ← List.append_assoc] at h
    exact .inr ⟨init, (List.append_inj' h rfl).1⟩

theorem Received.concat (h : Received edits r x) (e : Edit) : Received (edits ++ [e]) r x := by
  cases h with
  | inserted =>
    rw [List.append_assoc, List.cons_append]
    exact .inserted
  | passedOn h =>
    rw [List.append_assoc, List.cons_append]
    exact .passedOn h

/-- Either the last edit brings a terminal in, or it was there before. -/
theorem received_concat : Received (edits ++ [e]) r x ↔
    Received edits r x ∨ e = .insert r x ∨
      ∃ source, e = .union r source ∧ Received edits source x := by
  constructor
  · intro h
    generalize hall : edits ++ [e] = all at h
    cases h with
    | inserted =>
      obtain ⟨-, rfl⟩ | ⟨init, rfl⟩ := concat_eq_append_cons hall
      · exact .inr (.inl rfl)
      · exact .inl .inserted
    | passedOn h =>
      obtain ⟨rfl, rfl⟩ | ⟨init, rfl⟩ := concat_eq_append_cons hall
      · exact .inr (.inr ⟨_, rfl, h⟩)
      · exact .inl (.passedOn h)
  · rintro (h | rfl | ⟨source, rfl, h⟩)
    · exact h.concat e
    · exact .inserted
    · exact .passedOn h

theorem received_insert :
    Received (edits ++ [.insert r x]) r y ↔ y = x ∨ Received edits r y := by
  simp [received_concat, or_comm, eq_comm]

theorem received_union {source : Nat} :
    Received (edits ++ [.union r source]) r y ↔ Received edits r y ∨ Received edits source y := by
  simp [received_concat]

theorem received_setEmpty {target : Nat} {hasEmpty : Bool} :
    Received (edits ++ [.setEmpty target hasEmpty]) r y ↔ Received edits r y := by
  simp [received_concat]

theorem lastEmpty_concat : lastEmpty (edits ++ [e]) r =
    (e.setsEmpty? r).getD (lastEmpty edits r) := by
  rw [lastEmpty, List.filterMap_append]
  cases h : e.setsEmpty? r <;> simp [h, lastEmpty]

/-- The set has what the history says. -/
structure Collected (edits : List Edit) (r : Nat) (s : LookaheadSet) : Prop where
  ascending : s.Sorted
  mem_iff : ∀ x, x ∈ s.terminals ↔ Received edits r x
  contains_iff : ∀ x, s.contains x = true ↔ Received edits r x
  hasEmpty_eq : s.hasEmpty = lastEmpty edits r

theorem Collected.of_mem (hsorted : s.Sorted) (hmem : ∀ x, x ∈ s.terminals ↔ Received edits r x)
    (hempty : s.hasEmpty = lastEmpty edits r) : Collected edits r s :=
  ⟨hsorted, hmem, fun x => hsorted.contains_iff.trans (hmem x), hempty⟩

theorem collected_nil (r : Nat) : Collected [] r .empty := by
  refine .of_mem sorted_empty (fun x => iff_of_false List.not_mem_nil ?_) rfl
  intro h
  generalize hnil : ([] : List Edit) = edits at h
  cases h <;> simp at hnil

/-- Other sets are left alone. -/
theorem Collected.of_ne (h : Collected edits r s) (hr : r ≠ e.target) :
    Collected (edits ++ [e]) r s := by
  have hinsert : ∀ x, e ≠ .insert r x := fun x he => hr (by rw [he, Edit.target])
  have hunion : ∀ source, e ≠ .union r source := fun source he => hr (by rw [he, Edit.target])
  refine .of_mem h.ascending (fun x => ?_) ?_
  · simp [h.mem_iff, received_concat, hinsert, hunion]
  · rw [h.hasEmpty_eq, lastEmpty_concat]
    cases e with
    | insert target x => rfl
    | union target source => rfl
    | setEmpty target hasEmpty =>
      rw [Edit.setsEmpty?, if_neg fun htarget => hr htarget.symm, Option.getD_none]

/-- The set that is changed has received what the edit brings in. -/
theorem collected_outcome {sets : Nat → LookaheadSet} (h : ∀ r, Collected edits r (sets r))
    (e : Edit) : Collected (edits ++ [e]) e.target (Manner.direct.outcome sets e) := by
  cases e with
  | insert target x =>
    refine .of_mem ((h target).ascending.insert x) (fun y => ?_) ?_
    · exact (mem_insert.trans (or_congr_right ((h target).mem_iff y))).trans received_insert.symm
    · rw [lastEmpty_concat]
      exact (h target).hasEmpty_eq
  | union target source =>
    refine .of_mem (h target).ascending.unionTerminals (fun y => ?_) ?_
    · have hmem := or_congr ((h target).mem_iff y) ((h source).mem_iff y)
      exact (mem_unionTerminals.trans hmem).trans received_union.symm
    · rw [lastEmpty_concat]
      exact hasEmpty_unionTerminals.trans (h target).hasEmpty_eq
  | setEmpty target hasEmpty =>
    refine .of_mem (h target).ascending (fun y => ?_) ?_
    · exact ((h target).mem_iff y).trans received_setEmpty.symm
    · rw [lastEmpty_concat]
      simp [Edit.setsEmpty?, Edit.target, Manner.outcome]

theorem collected_run (edits : List Edit) (r : Nat) :
    Collected edits r (Manner.direct.run edits r) :=
  Registers.run_induction collected_nil (fun _ _ e h => collected_outcome h e)
    (fun _ _ _ _ hr h => h.of_ne hr) edits r

/-- Sets that ascend have nothing but their members and the empty string. -/
theorem Sorted.eq_iff (hs : s.Sorted) (ht : t.Sorted) :
    s = t ↔ s.hasEmpty = t.hasEmpty ∧ ∀ x, s.contains x = t.contains x := by
  refine ⟨fun h => h ▸ ⟨rfl, fun _ => rfl⟩, fun ⟨hempty, hmem⟩ => ?_⟩
  refine hs.eq_of_mem ht hempty fun x => ?_
  rw [← hs.contains_iff, ← ht.contains_iff, hmem x]

/-! ## Reports and searches -/

/-- The outcome of an operation that only adds terminals: it reports whether there are more of them
    than before, and without such a report nothing has changed. -/
structure Reports (s : LookaheadSet) (g : Growth LookaheadSet) : Prop where
  grew_iff : g.grew = true ↔ s.terminals.length < g.value.terminals.length
  same_iff : g.grew = false ↔ g.value = s
  hasEmpty_eq : g.value.hasEmpty = s.hasEmpty

theorem Reports.of_exact {g : Growth LookaheadSet} (h : Growth.Exact size s g)
    (hempty : g.value.hasEmpty = s.hasEmpty) : Reports s g where
  grew_iff := by rw [h.grew_iff_lt, size, size, hempty, Nat.add_lt_add_iff_right]
  same_iff := by rw [← Bool.not_eq_true, h.grew_iff, not_not]
  hasEmpty_eq := hempty

/-- Whoever searches for places has the same answers, reports and values. -/
structure Agrees (locate : Symbol → List Symbol → Place) (s : LookaheadSet) : Prop where
  contains : ∀ x, containsBy locate s x = s.contains x
  insert : ∀ x, insertBy locate s x = s.insert x
  union : ∀ t, unionBy locate s t = s.unionTerminals t

variable {locate : Symbol → List Symbol → Place}

theorem Locates.agrees (hlocate : Locates locate) (h : s.Sorted) : Agrees locate s :=
  ⟨hlocate.containsBy_eq h, hlocate.insertBy_eq h, hlocate.unionBy_eq h⟩

/-- As long as all sets ascend, a search finds the places in them, and so they go on ascending. -/
theorem Locates.run_eq (hlocate : Locates locate) (edits : List Edit) :
    (Manner.searching locate).run edits = Manner.direct.run edits := by
  suffices hrun : ∀ r, (Manner.searching locate).run edits r = Manner.direct.run edits r ∧
      (Manner.direct.run edits r).Sorted from funext fun r => (hrun r).1
  refine Registers.run_respects (R := fun s t => s = t ∧ Sorted t) ⟨rfl, sorted_empty⟩
    (fun values values' h e => ?_) edits
  obtain rfl : values = values' := funext fun r => (h r).1
  have hsorted : ∀ r, (values r).Sorted := fun r => (h r).2
  cases e with
  | insert target x =>
    have hinsert : insertBy locate (values target) x = (values target).insert x :=
      hlocate.insertBy_eq (hsorted target) x
    exact ⟨congrArg Growth.value hinsert, (hsorted target).insert x⟩
  | union target source =>
    have hunion : unionBy locate (values target) (values source) =
        (values target).unionTerminals (values source) :=
      hlocate.unionBy_eq (hsorted target) _
    exact ⟨congrArg Growth.value hunion, (hsorted target).unionTerminals⟩
  | setEmpty target hasEmpty => exact ⟨rfl, hsorted target⟩

/-! ## The laws of sets -/

/-- After every history the sets have what they received in strictly ascending order, and two of
    them with the same elements are equal, however they came to be. Insertions and unions report
    growth exactly, leave the empty string alone, and add what they should. All this may be done by
    any search that finds places in ascending lists, such as the one by halves. -/
theorem collects_received :
    (∀ edits r, Collected edits r (Manner.direct.run edits r)) ∧
    (∀ s x, Reports s (s.insert x) ∧
      ∀ y, y ∈ (s.insert x).value.terminals ↔ y = x ∨ y ∈ s.terminals) ∧
    (∀ s t, Reports s (s.unionTerminals t) ∧
      ∀ y, y ∈ (s.unionTerminals t).value.terminals ↔ y ∈ s.terminals ∨ y ∈ t.terminals) ∧
    (∀ edits edits' r r', Manner.direct.run edits r = Manner.direct.run edits' r' ↔
      (Manner.direct.run edits r).hasEmpty = (Manner.direct.run edits' r').hasEmpty ∧
      ∀ x, (Manner.direct.run edits r).contains x = (Manner.direct.run edits' r').contains x) ∧
    Locates bisect ∧
    ∀ locate, Locates locate → ∀ edits,
      (Manner.searching locate).run edits = Manner.direct.run edits ∧
      ∀ r, Agrees locate (Manner.direct.run edits r) := by
  refine ⟨collected_run, fun s x => ?_, fun s t => ?_, fun edits edits' r r' => ?_,
    locates_bisect, fun locate hlocate edits => ?_⟩
  · exact ⟨.of_exact (exact_insert s x) (hasEmpty_insert s x), fun y => mem_insert⟩
  · exact ⟨.of_exact (exact_unionTerminals s t) hasEmpty_unionTerminals,
      fun y => mem_unionTerminals⟩
  · exact (collected_run edits r).ascending.eq_iff (collected_run edits' r').ascending
  · exact ⟨hlocate.run_eq edits, fun r => hlocate.agrees (collected_run edits r).ascending⟩

/-- The first set receives `9` twice and `5` by way of the second one, which goes on to receive `7`
    for itself. -/
theorem collects_received_passedOn :
    let edits : List Edit := [.insert 0 ⟨9⟩, .insert 1 ⟨5⟩, .insert 0 ⟨2⟩, .insert 0 ⟨9⟩,
      .setEmpty 0 true, .union 0 1, .insert 1 ⟨7⟩]
    Locates bisect ∧ Manner.direct.run edits 0 = ⟨true, [⟨2⟩, ⟨5⟩, ⟨9⟩]⟩ ∧
      (Manner.searching bisect).run edits 0 = ⟨true, [⟨2⟩, ⟨5⟩, ⟨9⟩]⟩ ∧
      Received edits 0 ⟨5⟩ ∧ ¬ Received edits 0 ⟨7⟩ := by
  intro edits
  obtain ⟨hcollected, -, -, -, hbisect, hsearch⟩ := collects_received
  have hrun : Manner.direct.run edits 0 = ⟨true, [⟨2⟩, ⟨5⟩, ⟨9⟩]⟩ := by decide
  have hreceived : ∀ x, Received edits 0 x ↔ x ∈ [⟨2⟩, ⟨5⟩, ⟨9⟩] := fun x => by
    rw [← (hcollected edits 0).mem_iff, hrun]
  refine ⟨hbisect, hrun, ?_, (hreceived ⟨5⟩).2 (by decide), mt (hreceived ⟨7⟩).1 (by decide)⟩
  rw [(hsearch bisect hbisect edits).1, hrun]

end Predictive.LookaheadSet
