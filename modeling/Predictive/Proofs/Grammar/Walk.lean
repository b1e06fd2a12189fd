-- SUMMARY: The order that a walk gives to the nonterminals loses none of them and adds none.
import Mathlib.Data.List.Induction
import Mathlib.Data.List.Perm.Basic
import Predictive.Grammar.Walk
import Predictive.Proofs.Symbol.Bits

/-!
# What a walk visits

One step of a walk keeps the record of its visits and the set of visited symbols in agreement, never
puts anything but a nonterminal on the stack, and visits no symbol for a second time. Hence the
order of a walk has exactly the declared nonterminals, each once.
-/

namespace Predictive

/-! ## Lists without their repetitions -/

section Distinct

variable {α β : Type} [DecidableEq α] [DecidableEq β] {xs : List α} {x : α}

theorem eraseDups_concat (xs : List α) (x : α) :
    (xs ++ [x]).eraseDups = xs.eraseDups ++ if x ∈ xs then [] else [x] := by
  rw [List.eraseDups_append]
  by_cases hx : x ∈ xs <;> simp [List.removeAll, List.eraseDups_cons, hx]

theorem eraseDups_append_cons_of_mem (h : x ∈ xs) (ys : List α) :
    (xs ++ x :: ys).eraseDups = (xs ++ ys).eraseDups := by
  rw [List.eraseDups_append, List.eraseDups_append]
  simp [List.removeAll, h]

theorem nodup_eraseDups (xs : List α) : xs.eraseDups.Nodup := by
  induction xs using List.reverseRecOn with
  | nil => exact .nil
  | append_singleton xs x ih =>
    rw [eraseDups_concat]
    split
    · simpa using ih
    · next hx =>
      refine List.nodup_append.2 ⟨ih, by simp, ?_⟩
      rintro y hy z hz rfl
      exact hx (List.mem_singleton.1 hz ▸ List.mem_eraseDups.1 hy)

theorem eraseDups_of_nodup (h : xs.Nodup) : xs.eraseDups = xs := by
  induction xs using List.reverseRecOn with
  | nil => rfl
  | append_singleton xs x ih =>
    obtain ⟨hxs, -, hx⟩ := List.nodup_append.1 h
    rw [eraseDups_concat, ih hxs, if_neg]
    exact fun hmem => hx x hmem x (by simp) rfl

theorem eraseDups_map {f : α → β} (hf : Function.Injective f) (xs : List α) :
    (xs.map f).eraseDups = xs.eraseDups.map f := by
  induction xs using List.reverseRecOn with
  | nil => rfl
  | append_singleton xs x ih =>
    rw [List.map_append, List.map_singleton, eraseDups_concat, eraseDups_concat, ih]
    by_cases hx : x ∈ xs <;> simp [hf.eq_iff, hx]

end Distinct

/-! ## Steps -/

namespace Walk

variable {graph : RuleGraph}

/-- What every step of a walk keeps. -/
structure Sound (graph : RuleGraph) (w : Walk) : Prop where
  stack : ∀ x ∈ w.stack, graph.nonterminals.contains x = true
  visited : ∀ x, w.visited.contains x = true ↔ x ∈ w.visits.toList.map Visit.symbol
  visits : ∀ x ∈ w.visits.toList.map Visit.symbol, graph.nonterminals.contains x = true
  nodup : (w.visits.toList.map Visit.symbol).Nodup

theorem Sound.init (graph : RuleGraph) (start : Symbol) : Sound graph (Walk.init graph start) := by
  unfold Walk.init
  split
  · next h => exact ⟨by simpa using h, by simp, by simp, by simp⟩
  · exact ⟨by simp, by simp, by simp, by simp⟩

theorem nonterminal_of_mem_discover {w : Walk} {mentions : List Symbol} {x : Symbol}
    (h : x ∈ w.discover graph mentions) : graph.nonterminals.contains x = true := by
  simp only [discover, List.mem_eraseDups, List.mem_filter, Bool.and_eq_true] at h
  exact h.2.1.1

theorem Sound.step {w : Walk} (h : Sound graph w) : Sound graph (w.step graph) := by
  unfold Walk.step
  split
  · exact h
  · next x rest hstack =>
    have hx : graph.nonterminals.contains x = true := h.stack x (by simp [hstack])
    have hrest : ∀ y ∈ rest, graph.nonterminals.contains y = true :=
      fun y hy => h.stack y (by simp [hstack, hy])
    dsimp only
    split
    · exact ⟨hrest, h.visited, h.visits, h.nodup⟩
    · next hfresh =>
      refine ⟨?_, ?_, ?_, ?_⟩
      · intro y hy
        rcases List.mem_append.1 hy with hy | hy
        · exact nonterminal_of_mem_discover hy
        · exact hrest y hy
      · intro y
        simp [SymbolSet.contains_insert, h.visited y, or_comm]
      · intro y hy
        simp only [Array.toList_push, List.map_append, List.map_cons, List.map_nil,
          List.mem_append, List.mem_singleton] at hy
        rcases hy with hy | rfl
        · exact h.visits y hy
        · exact hx
      · have hnew : x ∉ w.visits.toList.map Visit.symbol :=
          fun hmem => hfresh ((h.visited x).2 hmem)
        simp only [Array.toList_push, List.map_append, List.map_cons, List.map_nil]
        refine List.nodup_append.2 ⟨h.nodup, by simp, ?_⟩
        rintro y hy z hz rfl
        exact hnew (List.mem_singleton.1 hz ▸ hy)

theorem Sound.run {w : Walk} (h : Sound graph w) (n : Nat) : Sound graph (w.run graph n) := by
  induction n generalizing w with
  | zero => exact h
  | succ n ih => exact ih h.step

/-- A visit is never taken back. -/
theorem visits_prefix_step (graph : RuleGraph) (w : Walk) :
    w.visits.toList <+: (w.step graph).visits.toList := by
  unfold Walk.step
  split
  · exact List.prefix_rfl
  · dsimp only
    split
    · exact List.prefix_rfl
    · rw [Array.toList_push]
      exact List.prefix_append _ _

theorem visits_prefix_run (graph : RuleGraph) (w : Walk) (n : Nat) :
    w.visits.toList <+: (w.run graph n).visits.toList := by
  induction n generalizing w with
  | zero => exact List.prefix_rfl
  | succ n ih => exact (visits_prefix_step graph w).trans (ih _)

end Walk

/-! ## Whole walks -/

namespace RuleGraph

variable {graph : RuleGraph} {start x : Symbol}

theorem sound_walk (graph : RuleGraph) (start : Symbol) : Walk.Sound graph (graph.walk start) :=
  (Walk.Sound.init graph start).run _

/-- A walk over declared nonterminals orders exactly these. -/
theorem mem_order (hdecl : ∀ x, graph.nonterminals.contains x = true ↔ x ∈ graph.declared)
    (start x : Symbol) : x ∈ graph.order start ↔ x ∈ graph.declared := by
  have hsound := graph.sound_walk start
  simp only [order, List.mem_append, List.mem_filter, Bool.not_eq_true']
  refine ⟨?_, ?_⟩
  · rintro (hvisit | hrest)
    · exact (hdecl x).1 (hsound.visits x hvisit)
    · exact hrest.1
  · intro hx
    cases hvisited : (graph.walk start).visited.contains x with
    | true => exact .inl ((hsound.visited x).1 hvisited)
    | false => exact .inr ⟨hx, rfl⟩

/-- A walk from a declared nonterminal orders it first. -/
theorem head?_order (hdecl : ∀ x, graph.nonterminals.contains x = true ↔ x ∈ graph.declared)
    (hstart : graph.nonterminals.contains start = true) :
    (graph.order start).head? = some start := by
  obtain ⟨n, hn⟩ := Nat.exists_eq_add_one.2 (List.length_pos_of_mem ((hdecl start).1 hstart))
  have hfirst : ∃ next, ((Walk.init graph start).step graph).visits.toList = [⟨start, next⟩] :=
    ⟨_, by simp [Walk.init, hstart, Walk.step]; rfl⟩
  obtain ⟨next, hfirst⟩ := hfirst
  have hprefix := Walk.visits_prefix_run graph ((Walk.init graph start).step graph) n
  rw [hfirst] at hprefix
  obtain ⟨rest, hrest⟩ := hprefix
  have hwalk : (graph.walk start).visits.toList = ⟨start, next⟩ :: rest := by
    rw [walk, hn, Walk.run, ← hrest]
    rfl
  simp [order, hwalk]

theorem nodup_order (hnodup : graph.declared.Nodup) (start : Symbol) :
    (graph.order start).Nodup := by
  have hsound := graph.sound_walk start
  refine List.nodup_append.2 ⟨hsound.nodup, hnodup.filter _, ?_⟩
  rintro x hx y hy rfl
  have hvisited := (hsound.visited x).2 hx
  simp [hvisited] at hy

/-- The order is a rearrangement of the declared nonterminals. -/
theorem order_perm (hdecl : ∀ x, graph.nonterminals.contains x = true ↔ x ∈ graph.declared)
    (hnodup : graph.declared.Nodup) (start : Symbol) : (graph.order start).Perm graph.declared :=
  (List.perm_ext_iff_of_nodup (nodup_order hnodup start) hnodup).2 (mem_order hdecl start)

end RuleGraph

end Predictive
