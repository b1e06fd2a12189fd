-- SUMMARY: Which rules claim a cell of a parse table, and what is in the cells that none of them claims.
import Predictive.ParseTable
import Predictive.Proofs.Lookahead.Map

/-!
# Claims on cells

A cell that some rule claims holds a rule, and a rule in a cell has claimed it. What is in the other
cells depends on the FOLLOW sets alone.
-/

namespace Predictive.ParseTable

variable {g : Grammar} {first : FirstSets} {follow : FollowSets} {r : RuleId} {a x : Symbol}

/-- Rule number `r` belongs to the nonterminal `a`, and the terminal `x` selects it: the right-hand
    side begins with it, or erases before it. -/
def Claims (g : Grammar) (first : FirstSets) (follow : FollowSets) (r : RuleId) (a x : Symbol) :
    Prop :=
  ∃ rule, g.rule? r = some rule ∧ rule.lhs = a ∧
    (x ∈ (first.ofString rule.rhs).terminals ∨
      (first.ofString rule.rhs).hasEmpty = true ∧ follow.sets.Has a x)

theorem mem_numberedRules {rule : Rule} : (r, rule) ∈ g.numberedRules ↔ g.rule? r = some rule := by
  obtain ⟨i⟩ := r
  simp [Grammar.numberedRules, Grammar.rule?, List.mem_zipIdx_iff_getElem?]

theorem mem_selectors {rule : Rule} :
    x ∈ selectors first follow rule ↔ x ∈ (first.ofString rule.rhs).terminals ∨
      (first.ofString rule.rhs).hasEmpty = true ∧ follow.sets.Has rule.lhs x := by
  unfold selectors LookaheadMap.Has
  simp only [List.mem_append, FollowSets.get?]
  cases (first.ofString rule.rhs).hasEmpty with
  | false => simp
  | true => cases follow.sets[rule.lhs]? <;> simp

theorem mem_claims {c : Claim} :
    c ∈ claims g first follow ↔
      Claims g first follow c.rule c.slot.nonterminal c.slot.terminal := by
  obtain ⟨⟨a, x⟩, r⟩ := c
  simp only [claims, List.mem_flatMap, List.mem_map, Prod.exists, Claim.mk.injEq, Slot.mk.injEq]
  refine ⟨?_, ?_⟩
  · rintro ⟨r, rule, hrule, y, hy, ⟨rfl, rfl⟩, rfl⟩
    exact ⟨rule, mem_numberedRules.1 hrule, rfl, mem_selectors.1 hy⟩
  · rintro ⟨rule, hrule, rfl, hx⟩
    exact ⟨r, rule, mem_numberedRules.2 hrule, x, mem_selectors.2 hx, ⟨rfl, rfl⟩, rfl⟩

/-! ## Placing rules -/

theorem getElem?_insert (cells : Std.ExtTreeMap Slot Cell) (s : Slot) (cell : Cell) (s' : Slot) :
    (cells.insert s cell)[s']? = if s = s' then some cell else cells[s']? := by
  simp only [Std.ExtTreeMap.getElem?_insert, Std.LawfulEqOrd.compare_eq_iff_eq]

theorem cells_place (t : ParseTable) (c : Claim) (s : Slot) :
    (t.place c).cells[s]? = if c.slot = s then some (.rule c.rule) else t.cells[s]? :=
  getElem?_insert t.cells c.slot (.rule c.rule) s

/-- After all claims a cell holds a rule that claimed it, or is as before if none did. -/
theorem cells_foldl_place (cs : List Claim) (t : ParseTable) (s : Slot) :
    (∃ c ∈ cs, c.slot = s ∧ (cs.foldl place t).cells[s]? = some (.rule c.rule)) ∨
      (∀ c ∈ cs, c.slot ≠ s) ∧ (cs.foldl place t).cells[s]? = t.cells[s]? := by
  induction cs generalizing t with
  | nil => exact .inr ⟨by simp, rfl⟩
  | cons c cs ih =>
    rw [List.foldl_cons]
    rcases ih (t.place c) with ⟨c', hc', hslot, hcell⟩ | ⟨hnone, hcell⟩
    · exact .inl ⟨c', by simp [hc'], hslot, hcell⟩
    · rw [cells_place] at hcell
      split at hcell
      · next hslot => exact .inl ⟨c, by simp, hslot, hcell⟩
      · next hslot => exact .inr ⟨List.forall_mem_cons.2 ⟨hslot, hnone⟩, hcell⟩

/-! ## Recovery -/

theorem cells_foldl_explore (slots : List Slot) (cells : Std.ExtTreeMap Slot Cell) (s : Slot) :
    (slots.foldl (fun cells s => cells.insert s Cell.explore) cells)[s]? =
      if s ∈ slots then some Cell.explore else cells[s]? := by
  induction slots generalizing cells with
  | nil => simp
  | cons slot slots ih =>
    rw [List.foldl_cons, ih, getElem?_insert]
    by_cases hslots : s ∈ slots
    · simp [hslots]
    · simp [hslots, eq_comm]

/-- Before the first claim there are cells for all pairs of a nonterminal and a terminal, and no
    rules. -/
theorem cells_blank (g : Grammar) (a x : Symbol) :
    (blank g).cells[(⟨a, x⟩ : Slot)]? =
      if a ∈ g.nonterminals ∧ x ∈ g.terminals then some .explore else none := by
  have hrows : (blank g).cells = (g.nonterminals.flatMap fun a =>
      g.terminals.map fun x => (⟨a, x⟩ : Slot)).foldl
        (fun cells s => cells.insert s Cell.explore) ∅ := by
    simp [blank, List.foldl_flatMap, List.foldl_map]
  rw [hrows, cells_foldl_explore]
  simp

theorem cells_extractAt (t : ParseTable) (slot s : Slot) :
    (t.extractAt slot).cells[s]? =
      if slot = s ∧ t.cells[s]? = some .explore then some .extract else t.cells[s]? := by
  unfold extractAt
  split
  · next hexplore =>
    rw [getElem?_insert]
    by_cases hs : slot = s
    · simp [← hs, hexplore]
    · simp [hs]
  · next hother =>
    rw [if_neg]
    rintro ⟨rfl, hexplore⟩
    exact hother hexplore

/-- Extraction is for the given cells that no rule has. -/
theorem cells_foldl_extractAt (slots : List Slot) (t : ParseTable) (s : Slot) :
    (slots.foldl extractAt t).cells[s]? =
      if s ∈ slots ∧ t.cells[s]? = some .explore then some .extract else t.cells[s]? := by
  induction slots generalizing t with
  | nil => simp
  | cons slot slots ih =>
    rw [List.foldl_cons, ih, cells_extractAt]
    by_cases hs : slot = s
    · by_cases hexplore : t.cells[s]? = some .explore <;> simp [hs, hexplore]
    · simp [hs, Ne.symm hs]

/-- Extraction leaves the rules where they are. -/
theorem rule_foldl_extractAt (slots : List Slot) (t : ParseTable) (s : Slot) (r : RuleId) :
    (slots.foldl extractAt t).cells[s]? = some (.rule r) ↔ t.cells[s]? = some (.rule r) := by
  rw [cells_foldl_extractAt]
  split
  · next h => simp [h.2]
  · rfl

theorem overwritten_foldl_extractAt (slots : List Slot) (t : ParseTable) :
    (slots.foldl extractAt t).overwritten = t.overwritten := by
  induction slots generalizing t with
  | nil => rfl
  | cons slot slots ih =>
    rw [List.foldl_cons, ih]
    unfold extractAt
    split <;> rfl

/-! ## Whole tables -/

theorem isSome_foldl_place {cs : List Claim} {t : ParseTable} {s : Slot}
    (h : t.cells[s]?.isSome = true) : (cs.foldl place t).cells[s]?.isSome = true := by
  rcases cells_foldl_place cs t s with ⟨c, -, -, hcell⟩ | ⟨-, hcell⟩
  · rw [hcell, Option.isSome_some]
  · rw [hcell, h]

theorem isSome_foldl_extractAt {slots : List Slot} {t : ParseTable} {s : Slot}
    (h : t.cells[s]?.isSome = true) : (slots.foldl extractAt t).cells[s]?.isSome = true := by
  rw [cells_foldl_extractAt]
  split
  · rfl
  · exact h

theorem mem_followSlots :
    (⟨a, x⟩ : Slot) ∈ followSlots g follow ↔ a ∈ g.nonterminals ∧ follow.sets.Has a x := by
  simp only [followSlots, List.mem_flatMap, FollowSets.get?, LookaheadMap.Has]
  refine ⟨?_, ?_⟩
  · rintro ⟨b, hb, hx⟩
    cases hs : follow.sets[b]? with
    | none => simp [hs] at hx
    | some s =>
      simp only [hs, List.mem_map, Slot.mk.injEq] at hx
      obtain ⟨y, hy, rfl, rfl⟩ := hx
      exact ⟨hb, s, hs, hy⟩
  · rintro ⟨ha, s, hs, hx⟩
    exact ⟨a, ha, by simpa [hs] using hx⟩

/-- There is a cell for every pair of a nonterminal and a terminal. -/
theorem isSome_get? (first : FirstSets) (follow : FollowSets) (ha : a ∈ g.nonterminals)
    (hx : x ∈ g.terminals) : ((withSets g first follow).get? a x).isSome = true := by
  refine isSome_foldl_extractAt (isSome_foldl_place ?_)
  rw [cells_blank, if_pos ⟨ha, hx⟩, Option.isSome_some]

/-- A rule in a cell claims it, whatever sets the table was made from. -/
theorem claims_of_get? (h : (withSets g first follow).get? a x = some (.rule r)) :
    Claims g first follow r a x := by
  rw [get?, withSets, rule_foldl_extractAt] at h
  rcases cells_foldl_place (claims g first follow) (blank g) ⟨a, x⟩ with
    ⟨c, hc, hslot, hcell⟩ | ⟨-, hcell⟩
  · obtain rfl : c.rule = r := by simpa [hcell] using h
    simpa [hslot] using mem_claims.1 hc
  · rw [hcell, cells_blank] at h
    split at h <;> cases h

/-- A cell that a rule claims holds a rule. -/
theorem exists_rule_of_claims (h : Claims g first follow r a x) :
    ∃ r', (withSets g first follow).get? a x = some (.rule r') := by
  have hmem : (⟨⟨a, x⟩, r⟩ : Claim) ∈ claims g first follow := mem_claims.2 h
  rcases cells_foldl_place (claims g first follow) (blank g) ⟨a, x⟩ with
    ⟨c, -, -, hcell⟩ | ⟨hnone, -⟩
  · exact ⟨c.rule, (rule_foldl_extractAt _ _ _ _).2 hcell⟩
  · exact absurd rfl (hnone _ hmem)

/-- A cell that no rule claims tells how to recover. -/
theorem get?_of_unclaimed (h : ∀ r, ¬ Claims g first follow r a x) :
    (withSets g first follow).get? a x =
      if a ∈ g.nonterminals ∧ x ∈ g.terminals then
        some (if follow.sets.Has a x then .extract else .explore)
      else none := by
  have hplaced : ((claims g first follow).foldl place (blank g)).cells[(⟨a, x⟩ : Slot)]? =
      if a ∈ g.nonterminals ∧ x ∈ g.terminals then some .explore else none := by
    rcases cells_foldl_place (claims g first follow) (blank g) ⟨a, x⟩ with
      ⟨c, hc, hslot, -⟩ | ⟨-, hcell⟩
    · refine absurd (mem_claims.1 hc) ?_
      rw [hslot]
      exact h c.rule
    · rw [hcell, cells_blank]
  rw [get?, withSets, cells_foldl_extractAt, hplaced]
  by_cases hkey : a ∈ g.nonterminals ∧ x ∈ g.terminals
  · by_cases hfollow : follow.sets.Has a x <;> simp [mem_followSlots, hkey, hfollow]
  · simp [hkey]

end Predictive.ParseTable
