-- SUMMARY: FIRST and FOLLOW sets are the same for grammars that differ in the order of their nonterminals and rules only.
import Predictive.Proofs.Grammar.Rearrangement
import Predictive.Proofs.Lookahead.Follow

/-!
# Lookahead sets of rearranged grammars

A pass takes the rules in order, and each may enlarge a set that later ones enlarge further. What a
set has after the pass, and whether the pass reports growth, depends on which rules there are but
not on their order. So the passes over rearranged rules agree with each other one by one, and there
are equally many.
-/

namespace Predictive

variable {g g' : Grammar} {first : FirstSets}

namespace Grammar.Rearranges

variable (h : g.Rearranges g')
include h

theorem ofKeys_nonterminals :
    LookaheadMap.ofKeys g'.nonterminals = LookaheadMap.ofKeys g.nonterminals := by
  refine Std.ExtTreeMap.ext_getElem? fun k => ?_
  simp only [LookaheadMap.getElem?_ofKeys, h.nonterminals.mem_iff]

theorem follow_sound {f : FollowSets} (hf : f.Sound g) : f.Sound g' :=
  ⟨fun b => by rw [h.isNonterminal]; exact hf.isSome b, hf.sorted⟩

variable (hwf : g.WellFormed) (hwf' : g'.WellFormed)
include hwf hwf'

/-! ## FIRST -/

theorem first_pass {f : FirstSets} (hf : f.Sound g) :
    FirstSets.pass g' f = FirstSets.pass g f := by
  refine (FirstSets.exact_pass hwf' f).eq_of_value (FirstSets.exact_pass hwf f) ?_
  have hsets : (FirstSets.pass g' f).value.sets = (FirstSets.pass g f).value.sets := by
    refine LookaheadMap.Sorted.eq_of_has (hf.sorted.contributeAll _) hf.pass.sorted ?_ ?_ ?_
    · exact fun a => LookaheadMap.isSome_contributeAll.trans LookaheadMap.isSome_contributeAll.symm
    · simp only [FirstSets.has_pass, h.mem_rules, implies_true]
    · simp only [FirstSets.hasEmpty_pass, h.mem_rules, implies_true]
  simpa [FirstSets.pass] using hsets

theorem first_solve : FirstSets.solve g' = FirstSets.solve g := by
  have hinit : FirstSets.init g' = FirstSets.init g := by
    simp only [FirstSets.init, h.terminals, h.terminalSet, h.ofKeys_nonterminals]
  have hbound : FirstSets.passBound g' = FirstSets.passBound g := by
    simp only [FirstSets.passBound, h.nonterminals.length_eq, h.terminals]
  rw [FirstSets.solve, hinit, hbound]
  exact saturate_congr (fun _ hf => hf.pass) (fun _ hf => h.first_pass hwf hwf' hf) (.init hwf)

theorem first_eq : FirstSets.ofGrammar g' = FirstSets.ofGrammar g := by
  rw [FirstSets.ofGrammar, h.first_solve hwf hwf', ← FirstSets.ofGrammar]

/-! ## FOLLOW -/

theorem follow_pass {f : FollowSets} (hf : f.Sound g) :
    FollowSets.pass g' first f = FollowSets.pass g first f := by
  refine ((h.follow_sound hf).exact_pass hwf').eq_of_value (hf.exact_pass hwf) ?_
  have hsets : (FollowSets.pass g' first f).value.sets =
      (FollowSets.pass g first f).value.sets := by
    refine LookaheadMap.Sorted.eq_of_has (hf.sorted.contributeAll _) hf.pass.sorted ?_ ?_ ?_
    · exact fun b => FollowSets.isSome_pass.trans FollowSets.isSome_pass.symm
    · simp only [FollowSets.has_pass, h.mem_rules, implies_true]
    · simp only [FollowSets.hasEmpty_pass, implies_true]
  simpa [FollowSets.pass] using hsets

theorem follow_solve (first : FirstSets) :
    FollowSets.solve g' first = FollowSets.solve g first := by
  have hinit : FollowSets.init g' = FollowSets.init g := by
    simp only [FollowSets.init, h.start, h.ofKeys_nonterminals]
  have hbound : FollowSets.passBound g' first = FollowSets.passBound g first := by
    simp only [FollowSets.passBound, h.nonterminals.length_eq]
  rw [FollowSets.solve, hinit, hbound]
  exact saturate_congr (fun _ hf => hf.pass) (fun _ hf => h.follow_pass hwf hwf' hf) (.init hwf)

theorem follow_eq (first : FirstSets) :
    FollowSets.ofGrammar g' first = FollowSets.ofGrammar g first := by
  rw [FollowSets.ofGrammar, h.follow_solve hwf hwf', ← FollowSets.ofGrammar]

end Grammar.Rearranges

end Predictive
