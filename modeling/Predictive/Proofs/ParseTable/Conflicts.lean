-- SUMMARY: What the number of overwritten cells counts: the claims on each cell beyond the first one.
import Mathlib.Algebra.Order.BigOperators.Group.Finset
import Mathlib.Data.Finset.Card
import Mathlib.Data.Finset.Image
import Predictive.Proofs.Grammar.Built
import Predictive.Proofs.ParseTable

/-!
# Conflicts

Claims are made in the order of the rules. A rule that claims a cell more than once does so without
another one in between, so every claim after the first takes the cell from a different rule exactly
if it is new. In the end the number of overwritten cells and the number of claimed cells add up to
the number of different claims, whatever their order was. Cell by cell this means that all rules
that claim a cell count except one.
-/

namespace Predictive.ParseTable

variable {g : Grammar} {first : FirstSets} {follow : FollowSets} {cs : List Claim} {t : ParseTable}

/-- The claims are in the order of the rules that make them. -/
def Ascending (cs : List Claim) : Prop :=
  cs.Pairwise fun c c' => c.rule.index ≤ c'.rule.index

theorem ascending_claims (g : Grammar) (first : FirstSets) (follow : FollowSets) :
    Ascending (claims g first follow) := by
  have hnumbers : g.numberedRules.Pairwise fun p q => p.1.index < q.1.index := by
    have hindices : (g.rules.toList.zipIdx.map Prod.snd).Pairwise (· < ·) := by
      rw [List.zipIdx_map_snd]
      exact List.pairwise_lt_range'
    exact List.pairwise_map.2 (List.pairwise_map.1 hindices)
  refine List.pairwise_flatMap.2 ⟨fun p _ => ?_, hnumbers.imp fun hlt c hc c' hc' => ?_⟩
  · exact List.pairwise_map.2 (List.pairwise_of_forall fun _ _ => Nat.le_refl _)
  · obtain ⟨x, -, rfl⟩ := List.mem_map.1 hc
    obtain ⟨x', -, rfl⟩ := List.mem_map.1 hc'
    exact Nat.le_of_lt hlt

/-- The rule in a claimed cell is the last one that claims it. -/
theorem le_of_cells_foldl_place (hcs : Ascending cs) {s : Slot} {r : RuleId}
    (hcell : (cs.foldl place t).cells[s]? = some (.rule r)) :
    ∀ c ∈ cs, c.slot = s → c.rule.index ≤ r.index := by
  induction cs using List.reverseRecOn with
  | nil => simp
  | append_singleton cs last ih =>
    obtain ⟨hinit, -, hlast⟩ := List.pairwise_append.1 hcs
    rw [List.foldl_append, List.foldl_cons, List.foldl_nil, cells_place] at hcell
    intro c hc hslot
    rcases List.mem_append.1 hc with hc | hc
    · split at hcell
      · obtain rfl : last.rule = r := by simpa using hcell
        exact hlast c hc last (by simp)
      · exact ih hinit hcell c hc hslot
    · obtain rfl := List.mem_singleton.1 hc
      obtain rfl : c.rule = r := by simpa [hslot] using hcell
      exact Nat.le_refl _

/-- A claim that comes last takes its cell from a different rule if it is new and the cell was
    claimed before. -/
theorem isSome_displaced?_iff {c : Claim} (hcs : Ascending (cs ++ [c]))
    (hblank : ∀ (s : Slot) (r : RuleId), t.cells[s]? ≠ some (.rule r)) :
    ((cs.foldl place t).displaced? c).isSome = true ↔ c ∉ cs ∧ c.slot ∈ cs.map Claim.slot := by
  obtain ⟨hinit, -, hlast⟩ := List.pairwise_append.1 hcs
  unfold displaced?
  rcases cells_foldl_place cs t c.slot with ⟨c', hc', hslot, hcell⟩ | ⟨hnone, hcell⟩
  · have hclaimed : c.slot ∈ cs.map Claim.slot := List.mem_map.2 ⟨c', hc', hslot⟩
    have hrepeated : c ∈ cs ↔ c'.rule = c.rule := by
      refine ⟨fun hc => ?_, fun hrule => ?_⟩
      · have hle : c.rule.index ≤ c'.rule.index := le_of_cells_foldl_place hinit hcell c hc rfl
        have hge : c'.rule.index ≤ c.rule.index := hlast c' hc' c (by simp)
        exact RuleId.mk.injEq .. ▸ Nat.le_antisymm hge hle
      · obtain rfl : c' = c := by cases c; cases c'; simp_all
        exact hc'
    by_cases hrule : c'.rule = c.rule <;> simp [hcell, hclaimed, hrepeated, hrule]
  · have hunclaimed : c.slot ∉ cs.map Claim.slot := by simpa using hnone
    simp only [hcell, hunclaimed, and_false, iff_false]
    split
    · next r hr => exact absurd hr (hblank _ r)
    · simp

/-- The overwritten cells and the claimed ones add up to the different claims. -/
theorem overwritten_foldl_place (hcs : Ascending cs)
    (hblank : ∀ (s : Slot) (r : RuleId), t.cells[s]? ≠ some (.rule r)) :
    (cs.foldl place t).overwritten + (cs.toFinset.image Claim.slot).card =
      t.overwritten + cs.toFinset.card := by
  induction cs using List.reverseRecOn with
  | nil => simp
  | append_singleton cs c ih =>
    have hdisplaced := isSome_displaced?_iff hcs hblank
    have ih := ih (List.pairwise_append.1 hcs).1
    have hclaims : (cs ++ [c]).toFinset = insert c cs.toFinset := by
      ext
      simp
    have hslots : c.slot ∈ cs.toFinset.image Claim.slot ↔ c.slot ∈ cs.map Claim.slot := by simp
    rw [List.foldl_append, List.foldl_cons, List.foldl_nil, place, hclaims, Finset.image_insert,
      Finset.card_insert_eq_ite, Finset.card_insert_eq_ite]
    simp only [hdisplaced, hslots, List.mem_toFinset]
    by_cases hc : c ∈ cs
    · have hslot : c.slot ∈ cs.map Claim.slot := List.mem_map_of_mem hc
      simp only [hc, hslot, not_true, false_and, if_true, if_false]
      omega
    · by_cases hslot : c.slot ∈ cs.map Claim.slot
      · simp only [hc, hslot, not_false_eq_true, and_self, if_true, if_false]
        omega
      · simp only [hc, hslot, and_false, if_false]
        omega

theorem cells_blank_ne_rule (g : Grammar) (s : Slot) (r : RuleId) :
    (blank g).cells[s]? ≠ some (.rule r) := by
  rw [cells_blank]
  split <;> simp

/-- The overwritten cells of a table and its claimed cells add up to the claims on them. -/
theorem overwritten_add_card (g : Grammar) (first : FirstSets) (follow : FollowSets) :
    (withSets g first follow).overwritten +
        ((claims g first follow).toFinset.image Claim.slot).card =
      (claims g first follow).toFinset.card := by
  rw [withSets, overwritten_foldl_extractAt,
    overwritten_foldl_place (ascending_claims g first follow) (cells_blank_ne_rule g)]
  simp [blank]

/-- There are no conflicts exactly if no two rules claim one cell. -/
theorem overwritten_eq_zero_iff :
    (withSets g first follow).overwritten = 0 ↔
      ∀ a x r r', Claims g first follow r a x → Claims g first follow r' a x → r = r' := by
  have hinjective : (withSets g first follow).overwritten = 0 ↔
      Set.InjOn Claim.slot (claims g first follow).toFinset := by
    have hcard := overwritten_add_card g first follow
    rw [← Finset.card_image_iff]
    omega
  rw [hinjective]
  refine ⟨fun hslot a x r r' hr hr' => ?_, ?_⟩
  · have hc : (⟨⟨a, x⟩, r⟩ : Claim) ∈ claims g first follow := mem_claims.2 hr
    have hc' : (⟨⟨a, x⟩, r'⟩ : Claim) ∈ claims g first follow := mem_claims.2 hr'
    exact congrArg Claim.rule (hslot (List.mem_toFinset.2 hc) (List.mem_toFinset.2 hc') rfl)
  · rintro h ⟨⟨a, x⟩, r⟩ hc ⟨⟨a', x'⟩, r'⟩ hc' hslot
    obtain ⟨rfl, rfl⟩ := Slot.mk.inj hslot
    rw [Finset.mem_coe, List.mem_toFinset, mem_claims] at hc hc'
    rw [h a x r r' hc hc']

/-- Without conflicts a rule has every cell that it claims. -/
theorem get?_of_claims {r : RuleId} {a x : Symbol}
    (hfree : (withSets g first follow).overwritten = 0) (h : Claims g first follow r a x) :
    (withSets g first follow).get? a x = some (.rule r) := by
  obtain ⟨r', hr'⟩ := exists_rule_of_claims h
  rw [hr', overwritten_eq_zero_iff.1 hfree a x r r' h (claims_of_get? hr')]

/-! ## Counting cell by cell -/

/-- The cells that some rule claims. -/
def claimedSlots (g : Grammar) (first : FirstSets) (follow : FollowSets) : Finset Slot :=
  (claims g first follow).toFinset.image Claim.slot

/-- The rules that claim a cell, each of them once. -/
def claimants (g : Grammar) (first : FirstSets) (follow : FollowSets) (s : Slot) : Finset RuleId :=
  {c ∈ (claims g first follow).toFinset | c.slot = s}.image Claim.rule

theorem mem_claimants {s : Slot} {r : RuleId} : r ∈ claimants g first follow s ↔
    Claims g first follow r s.nonterminal s.terminal := by
  simp only [claimants, Finset.mem_image, Finset.mem_filter, List.mem_toFinset]
  refine ⟨?_, fun h => ⟨⟨s, r⟩, ⟨mem_claims.2 h, rfl⟩, rfl⟩⟩
  rintro ⟨c, ⟨hc, rfl⟩, rfl⟩
  exact mem_claims.1 hc

theorem mem_claimedSlots {s : Slot} : s ∈ claimedSlots g first follow ↔
    ∃ r, Claims g first follow r s.nonterminal s.terminal := by
  simp only [claimedSlots, Finset.mem_image, List.mem_toFinset]
  refine ⟨?_, fun ⟨r, h⟩ => ⟨⟨s, r⟩, mem_claims.2 h, rfl⟩⟩
  rintro ⟨c, hc, rfl⟩
  exact ⟨c.rule, mem_claims.1 hc⟩

theorem card_claimants (s : Slot) : (claimants g first follow s).card =
    {c ∈ (claims g first follow).toFinset | c.slot = s}.card := by
  refine Finset.card_image_of_injOn ?_
  rintro ⟨s₁, r₁⟩ h₁ ⟨s₂, r₂⟩ h₂ hrule
  obtain rfl : s₁ = s := (Finset.mem_filter.1 h₁).2
  obtain rfl : s₂ = s₁ := (Finset.mem_filter.1 h₂).2
  exact congrArg (Claim.mk s₂) hrule

/-- Every different claim is that of one claimant on one cell. -/
theorem sum_card_claimants (g : Grammar) (first : FirstSets) (follow : FollowSets) :
    ∑ s ∈ claimedSlots g first follow, (claimants g first follow s).card =
      (claims g first follow).toFinset.card := by
  simp only [card_claimants]
  exact (Finset.card_eq_sum_card_image Claim.slot _).symm

/-- Each cell counts with all its claimants but one. -/
theorem overwritten_eq_sum (g : Grammar) (first : FirstSets) (follow : FollowSets) :
    (withSets g first follow).overwritten =
      ∑ s ∈ claimedSlots g first follow, ((claimants g first follow s).card - 1) := by
  have hclaimed : ∀ s ∈ claimedSlots g first follow, 1 ≤ (claimants g first follow s).card := by
    intro s hs
    obtain ⟨r, hr⟩ := mem_claimedSlots.1 hs
    exact Finset.card_pos.2 ⟨r, mem_claimants.2 hr⟩
  have hcard : (withSets g first follow).overwritten + (claimedSlots g first follow).card =
      (claims g first follow).toFinset.card := overwritten_add_card g first follow
  rw [Finset.sum_tsub_distrib _ hclaimed, sum_card_claimants, ← Finset.card_eq_sum_ones]
  omega

/-- A claim that was made before does not count, since its rule still has the cell. -/
theorem overwritten_place_of_mem {before after : List Claim} {c : Claim}
    (hcs : claims g first follow = before ++ c :: after) (hc : c ∈ before) :
    ((before.foldl place (blank g)).place c).overwritten =
      (before.foldl place (blank g)).overwritten := by
  have hascending : Ascending (before ++ [c]) := by
    have hall := ascending_claims g first follow
    rw [hcs, List.append_cons] at hall
    exact (List.pairwise_append.1 hall).1
  have hdisplaced := isSome_displaced?_iff hascending (cells_blank_ne_rule g)
  simp [place, hdisplaced, hc]

/-- The overwritten cells are the claimants of each cell beyond the first one. So there are none
    exactly if no cell has two, and the second claim of a rule that reaches a terminal both by
    FIRST and by FOLLOW does not count. -/
theorem overwritten_eq_sum_claimants (g : Grammar) (first : FirstSets) (follow : FollowSets) :
    (∀ s, s ∈ claimedSlots g first follow ↔
      ∃ r, Claims g first follow r s.nonterminal s.terminal) ∧
    (∀ s r, r ∈ claimants g first follow s ↔
      Claims g first follow r s.nonterminal s.terminal) ∧
    (withSets g first follow).overwritten =
      ∑ s ∈ claimedSlots g first follow, ((claimants g first follow s).card - 1) ∧
    ((withSets g first follow).overwritten = 0 ↔
      ∀ a x r r', Claims g first follow r a x → Claims g first follow r' a x → r = r') ∧
    ∀ before c after, claims g first follow = before ++ c :: after → c ∈ before →
      ((before.foldl place (blank g)).place c).overwritten =
        (before.foldl place (blank g)).overwritten :=
  ⟨fun _ => mem_claimedSlots, fun _ _ => mem_claimants, overwritten_eq_sum g first follow,
    overwritten_eq_zero_iff, fun _ _ _ => overwritten_place_of_mem⟩

/-- The steps that collect `S → A a`, `A → B | a | a b` and `B → a | ε`. -/
def contestedSteps : List BuilderStep :=
  [.createSymbol (some "S"), .createSymbol (some "A"), .createSymbol (some "B"),
    .createSymbol (some "a"), .createSymbol (some "b"), .addRules ⟨1⟩ [[⟨2⟩, ⟨4⟩]],
    .addRules ⟨2⟩ [[⟨3⟩], [⟨4⟩], [⟨4⟩, ⟨5⟩]], .addRules ⟨3⟩ [[⟨4⟩], []]]

def contested : Grammar := (Builder.ofSteps contestedSteps).layout ⟨1⟩

/-- Three rules claim the cell of `A` and `a`, and two that of `B` and `a`. The second claim of
    `A → B`, which begins with `a` and also erases before `a`, does not count. -/
theorem overwritten_eq_sum_claimants_contested : contested.Built ∧
    (ofGrammar contested).overwritten = 3 ∧
    (([⟨⟨⟨1⟩, ⟨4⟩⟩, ⟨0⟩⟩, ⟨⟨⟨2⟩, ⟨4⟩⟩, ⟨1⟩⟩].foldl place (blank contested)).place
      ⟨⟨⟨2⟩, ⟨4⟩⟩, ⟨1⟩⟩).overwritten = 0 := by
  have hbuilt : contested.Built :=
    ⟨contestedSteps, Builder.build_of_fault? (by decide +kernel) rfl⟩
  have hclaims : claims contested (.ofGrammar contested)
      (.ofGrammar contested (.ofGrammar contested)) =
        [⟨⟨⟨1⟩, ⟨4⟩⟩, ⟨0⟩⟩, ⟨⟨⟨2⟩, ⟨4⟩⟩, ⟨1⟩⟩] ++ ⟨⟨⟨2⟩, ⟨4⟩⟩, ⟨1⟩⟩ ::
          [⟨⟨⟨2⟩, ⟨4⟩⟩, ⟨2⟩⟩, ⟨⟨⟨2⟩, ⟨4⟩⟩, ⟨3⟩⟩, ⟨⟨⟨3⟩, ⟨4⟩⟩, ⟨4⟩⟩, ⟨⟨⟨3⟩, ⟨4⟩⟩, ⟨5⟩⟩] := by
    decide +kernel
  obtain ⟨-, -, hsum, -, hrepeated⟩ := overwritten_eq_sum_claimants contested
    (.ofGrammar contested) (.ofGrammar contested (.ofGrammar contested))
  exact ⟨hbuilt, hsum.trans (by decide +kernel),
    (hrepeated _ _ _ hclaims (by decide)).trans (by decide +kernel)⟩

end Predictive.ParseTable
