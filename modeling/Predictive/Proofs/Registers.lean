-- SUMMARY: Histories of operations on several values, each of which changes one of them.
import Mathlib.Data.List.Induction
import Mathlib.Logic.Function.Basic

/-!
# Registers

Values of the same kind are told apart by numbers. An operation looks at any of them and gives a new
value to one, its target. What holds of the target after an operation, and of the others still,
holds of all of them after every history.
-/

namespace Predictive.Registers

variable {ε α β : Type} {target : ε → Nat} {outcome : (Nat → α) → ε → α} {start : α}

/-- The values after a history of operations. -/
def run (target : ε → Nat) (outcome : (Nat → α) → ε → α) (start : α) (history : List ε) :
    Nat → α :=
  history.foldl (fun values e => Function.update values (target e) (outcome values e))
    fun _ => start

theorem run_concat (history : List ε) (e : ε) :
    run target outcome start (history ++ [e]) =
      Function.update (run target outcome start history) (target e)
        (outcome (run target outcome start history) e) := by
  simp [run]

theorem run_induction {P : List ε → Nat → α → Prop} (hstart : ∀ r, P [] r start)
    (htarget : ∀ history values e, (∀ r, P history r (values r)) →
      P (history ++ [e]) (target e) (outcome values e))
    (hothers : ∀ history e r a, r ≠ target e → P history r a → P (history ++ [e]) r a)
    (history : List ε) (r : Nat) : P history r (run target outcome start history r) := by
  induction history using List.reverseRecOn generalizing r with
  | nil => exact hstart r
  | append_singleton history e ih =>
    rw [run_concat]
    by_cases hr : r = target e
    · rw [hr, Function.update_self]
      exact htarget history _ e ih
    · rw [Function.update_of_ne hr]
      exact hothers history e r _ hr (ih r)

/-- Values stay related if each operation has related outcomes on related values. -/
theorem run_respects {R : α → β → Prop} {outcome' : (Nat → β) → ε → β} {start' : β}
    (hstart : R start start')
    (houtcome : ∀ values values', (∀ r, R (values r) (values' r)) →
      ∀ e, R (outcome values e) (outcome' values' e)) (history : List ε) (r : Nat) :
    R (run target outcome start history r) (run target outcome' start' history r) := by
  refine run_induction (P := fun history r a => R a (run target outcome' start' history r))
    (fun _ => hstart) (fun history values e h => ?_) (fun history e r a hr h => ?_) history r
  · rw [run_concat, Function.update_self]
    exact houtcome values _ h e
  · rw [run_concat, Function.update_of_ne hr]
    exact h

end Predictive.Registers
