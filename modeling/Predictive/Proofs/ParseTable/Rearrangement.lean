-- SUMMARY: Tables of grammars with the same rules in different orders: only conflicts make a difference between them.
import Predictive.Proofs.Grammar.Rearrangement
import Predictive.Proofs.Parse.Renumbering
import Predictive.Proofs.ParseTable.Conflicts

/-!
# Tables of rearranged grammars

Which rules claim a cell does not depend on their order, so neither do the kinds of cells nor the
number of overwritten ones. Only which of several rules gets the cell does. Where there are no
conflicts the tables are the same up to the numbers of the rules.
-/

namespace Predictive

/-- What a cell tells the parser to do, apart from the number of the rule. -/
inductive CellKind where
  | rule
  | extract
  | explore
deriving DecidableEq, Repr

def Cell.kind : Cell → CellKind
  | .rule _ => .rule
  | .extract => .extract
  | .explore => .explore

def Claim.renumber (σ : RuleId → RuleId) (c : Claim) : Claim :=
  { c with rule := σ c.rule }

theorem Claim.renumber_injective {σ : RuleId → RuleId} (hσ : Function.Injective σ) :
    Function.Injective (renumber σ) := by
  rintro ⟨s, r⟩ ⟨s', r'⟩ h
  obtain ⟨rfl, hr⟩ := Claim.mk.inj h
  exact congrArg (Claim.mk s) (hσ hr)

namespace ParseTable

variable {g g' : Grammar} {first : FirstSets} {follow : FollowSets} {σ : RuleId ≃ RuleId}

section

variable (hσ : ∀ r, g'.rule? (σ r) = g.rule? r)
include hσ

theorem claims_renumber {r : RuleId} {a x : Symbol} :
    Claims g' first follow (σ r) a x ↔ Claims g first follow r a x := by
  rw [Claims, Claims, hσ]

theorem toFinset_claims_renumber :
    (claims g' first follow).toFinset =
      (claims g first follow).toFinset.image (Claim.renumber σ) := by
  ext c
  simp only [List.mem_toFinset, mem_claims, Finset.mem_image]
  refine ⟨fun hc => ⟨⟨c.slot, σ.symm c.rule⟩, ?_, ?_⟩, ?_⟩
  · rw [← claims_renumber hσ, Equiv.apply_symm_apply]
    exact hc
  · simp [Claim.renumber]
  · rintro ⟨c, hc, rfl⟩
    exact (claims_renumber hσ).2 hc

/-- There are as many overwritten cells as under the other numbers. -/
theorem overwritten_renumber :
    (withSets g' first follow).overwritten = (withSets g first follow).overwritten := by
  have hcard := overwritten_add_card g first follow
  have hcard' := overwritten_add_card g' first follow
  have hslots : Claim.slot ∘ Claim.renumber σ = Claim.slot := rfl
  rw [toFinset_claims_renumber hσ, Finset.image_image, hslots,
    Finset.card_image_of_injective _ (Claim.renumber_injective σ.injective)] at hcard'
  omega

end

section

variable (h : g.Rearranges g')
include h

theorem unclaimed_of_rearranges {a x : Symbol} (hnone : ∀ r, ¬ Claims g first follow r a x) :
    ∀ r, ¬ Claims g' first follow r a x := by
  rintro r' ⟨rule, hrule, hclaims⟩
  obtain ⟨r, hr⟩ := Grammar.exists_rule?_of_mem
    ((h.mem_rules rule).1 (Grammar.mem_rules_of_rule? hrule))
  exact hnone r ⟨rule, hr, hclaims⟩

/-- The recovery in a cell that no rule claims. -/
theorem get?_of_unclaimed_rearranges {a x : Symbol} (hnone : ∀ r, ¬ Claims g first follow r a x) :
    (withSets g' first follow).get? a x = (withSets g first follow).get? a x := by
  rw [get?_of_unclaimed hnone, get?_of_unclaimed (unclaimed_of_rearranges h hnone)]
  simp only [h.nonterminals.mem_iff, h.terminals]

/-- Cells are of the same kind, whatever the order of the rules. -/
theorem kind_of_rearranges (a x : Symbol) :
    ((withSets g' first follow).get? a x).map Cell.kind =
      ((withSets g first follow).get? a x).map Cell.kind := by
  by_cases hclaimed : ∃ r, Claims g first follow r a x
  · obtain ⟨r, hr⟩ := hclaimed
    obtain ⟨σ, hσ⟩ := h.exists_renumbering
    obtain ⟨r₁, hr₁⟩ := exists_rule_of_claims hr
    obtain ⟨r₂, hr₂⟩ := exists_rule_of_claims ((claims_renumber hσ).2 hr)
    rw [hr₁, hr₂]
    rfl
  · rw [get?_of_unclaimed_rearranges h (not_exists.1 hclaimed)]

/-- Without conflicts the cells are the same under the other numbers. -/
theorem get?_renumber (hσ : ∀ r, g'.rule? (σ r) = g.rule? r)
    (hfree : (withSets g first follow).overwritten = 0) (a x : Symbol) :
    (withSets g' first follow).get? a x =
      ((withSets g first follow).get? a x).map (Cell.renumber σ) := by
  by_cases hclaimed : ∃ r, Claims g first follow r a x
  · obtain ⟨r, hr⟩ := hclaimed
    have hfree' := (overwritten_renumber hσ).trans hfree
    rw [get?_of_claims hfree hr, get?_of_claims hfree' ((claims_renumber hσ).2 hr)]
    rfl
  · have hnone := not_exists.1 hclaimed
    rw [get?_of_unclaimed_rearranges h hnone, get?_of_unclaimed hnone]
    split
    · split <;> rfl
    · rfl

end

end ParseTable

end Predictive
