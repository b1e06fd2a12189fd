-- SUMMARY: Renamed grammars: walks and layouts that stay the same when symbols are exchanged for others.
import Predictive.Grammar.Display
import Predictive.Proofs.Grammar.Built

/-!
# Renaming

Neither the walk nor the layout looks at the IDs of symbols. If an injective map takes the
nonterminals and the rules of one builder to those of another, then it takes the grammar of the
first to the grammar of the second. It does not matter in which order the second one declares its
nonterminals, as long as this order is the one that the first walk found: walking again from there
changes nothing.
-/

namespace Predictive

variable {ρ : Symbol → Symbol}

/-! ## Walks -/

namespace RuleGraph

/-- The rules of the second graph are those of the first one with other symbols. -/
structure Renames (ρ : Symbol → Symbol) (graph graph' : RuleGraph) : Prop where
  nonterminals : ∀ x, graph'.nonterminals.contains (ρ x) = graph.nonterminals.contains x
  mentions : ∀ x, graph'.mentions (ρ x) = (graph.mentions x).map ρ

end RuleGraph

namespace Walk

/-- The second walk has come as far as the first one. -/
structure Renames (ρ : Symbol → Symbol) (w w' : Walk) : Prop where
  stack : w'.stack = w.stack.map ρ
  waiting : ∀ x, w'.waiting.contains (ρ x) = w.waiting.contains x
  visited : ∀ x, w'.visited.contains (ρ x) = w.visited.contains x
  visits : w'.visits.toList.map Visit.symbol = (w.visits.toList.map Visit.symbol).map ρ

variable {graph graph' : RuleGraph} {w w' : Walk}

theorem Renames.init (hρ : Function.Injective ρ) (hgraph : graph.Renames ρ graph')
    (start : Symbol) : Renames ρ (Walk.init graph start) (Walk.init graph' (ρ start)) := by
  unfold Walk.init
  rw [hgraph.nonterminals]
  split
  · exact ⟨rfl, by simp [SymbolSet.contains_insert, hρ.eq_iff], by simp, rfl⟩
  · exact ⟨rfl, by simp, by simp, rfl⟩

theorem Renames.discover (hρ : Function.Injective ρ) (hgraph : graph.Renames ρ graph')
    (h : Renames ρ w w') (mentions : List Symbol) :
    w'.discover graph' (mentions.map ρ) = (w.discover graph mentions).map ρ := by
  rw [Walk.discover, Walk.discover, List.filter_map, eraseDups_map hρ]
  simp [Function.comp_def, hgraph.nonterminals, h.visited, h.waiting]

theorem Renames.step (hρ : Function.Injective ρ) (hgraph : graph.Renames ρ graph')
    (h : Renames ρ w w') : Renames ρ (w.step graph) (w'.step graph') := by
  cases hstack : w.stack with
  | nil =>
    have hstack' : w'.stack = [] := by simp [h.stack, hstack]
    simpa [Walk.step, hstack, hstack'] using h
  | cons x rest =>
    have hstack' : w'.stack = ρ x :: rest.map ρ := by simp [h.stack, hstack]
    have hwaiting : ∀ y, (w'.waiting.erase (ρ x)).contains (ρ y) =
        (w.waiting.erase x).contains y := by
      simp [SymbolSet.contains_erase, hρ.eq_iff, h.waiting]
    simp only [Walk.step, hstack, hstack', h.visited]
    split
    · exact ⟨rfl, hwaiting, h.visited, h.visits⟩
    · have hmarked : Renames ρ ⟨rest, w.waiting.erase x, w.visited.insert x, w.visits⟩
          ⟨rest.map ρ, w'.waiting.erase (ρ x), w'.visited.insert (ρ x), w'.visits⟩ :=
        ⟨rfl, hwaiting, by simp [SymbolSet.contains_insert, hρ.eq_iff, h.visited], h.visits⟩
      rw [hgraph.mentions, hmarked.discover hρ hgraph]
      refine ⟨by simp, fun y => ?_, hmarked.visited, ?_⟩
      · rw [Bool.eq_iff_iff, SymbolSet.contains_foldl_insert, SymbolSet.contains_foldl_insert,
          hwaiting, List.mem_map_of_injective hρ]
      · simp [h.visits]

theorem Renames.run (hρ : Function.Injective ρ) (hgraph : graph.Renames ρ graph')
    (h : Renames ρ w w') (n : Nat) : Renames ρ (w.run graph n) (w'.run graph' n) := by
  induction n generalizing w w' with
  | zero => exact h
  | succ n ih => exact ih (h.step hρ hgraph)

end Walk

namespace RuleGraph

variable {graph graph' : RuleGraph} {start : Symbol}

/-- A walk over a renamed graph whose nonterminals are declared in the order of the first walk
    gives this order again. -/
theorem Renames.order_eq (hρ : Function.Injective ρ) (h : graph.Renames ρ graph')
    (hdecl : ∀ x, graph.nonterminals.contains x = true ↔ x ∈ graph.declared)
    (hnodup : graph.declared.Nodup) (hdeclared : graph'.declared = (graph.order start).map ρ) :
    graph'.order (ρ start) = (graph.order start).map ρ := by
  have hlength : graph'.declared.length = graph.declared.length := by
    rw [hdeclared, List.length_map, (order_perm hdecl hnodup start).length_eq]
  have hwalk : Walk.Renames ρ (graph.walk start) (graph'.walk (ρ start)) := by
    rw [walk, walk, hlength]
    exact (Walk.Renames.init hρ h start).run hρ h _
  -- Of the new declarations those that the walk does not visit are the same as before.
  have hvisits : ((graph.walk start).visits.toList.map Visit.symbol).filter
      (fun x => !(graph.walk start).visited.contains x) = [] := by
    refine List.filter_eq_nil_iff.2 fun x hx => ?_
    simp [((graph.sound_walk start).visited x).2 hx]
  have hrest : (graph.order start).filter (fun x => !(graph.walk start).visited.contains x) =
      graph.declared.filter fun x => !(graph.walk start).visited.contains x := by
    rw [order, List.filter_append, hvisits, List.nil_append, List.filter_filter]
    simp
  rw [order, hdeclared, List.filter_map, hwalk.visits]
  simp only [Function.comp_def, hwalk.visited, hrest]
  rw [← List.map_append]
  rfl

end RuleGraph

/-! ## Layouts -/

def Rule.rename (ρ : Symbol → Symbol) (rule : Rule) : Rule :=
  ⟨ρ rule.lhs, rule.rhs.map ρ⟩

def Block.rename (ρ : Symbol → Symbol) (b : Block) : Block :=
  { b with lhs := ρ b.lhs }

theorem Block.layout_map (ρ : Symbol → Symbol) (first : Nat) (sizes : List (Symbol × Nat)) :
    layout first (sizes.map fun (x, count) => (ρ x, count)) =
      (layout first sizes).map (rename ρ) := by
  induction sizes generalizing first with
  | nil => rfl
  | cons size sizes ih => simp [layout, rename, ih]

/-- The second grammar is the first one with other symbols. -/
structure Grammar.Renames (ρ : Symbol → Symbol) (g g' : Grammar) : Prop where
  start : g'.start = ρ g.start
  terminals : ∀ x, g'.isTerminal (ρ x) = g.isTerminal x
  nonterminals : ∀ x, g'.isNonterminal (ρ x) = g.isNonterminal x
  blocks : g'.blocks = g.blocks.map (Block.rename ρ)
  rules : g'.rules.toList = g.rules.toList.map (Rule.rename ρ)

namespace Grammar.Renames

variable {g g' : Grammar} (h : g.Renames ρ g')
include h

theorem nonterminals_eq : g'.nonterminals = g.nonterminals.map ρ := by
  simp [Grammar.nonterminals, h.blocks, Block.rename]

theorem rule?_eq (r : RuleId) : g'.rule? r = (g.rule? r).map (Rule.rename ρ) := by
  rw [rule?, rule?, ← Array.getElem?_toList, h.rules, List.getElem?_map, Array.getElem?_toList]

theorem rulesIn_eq (b : Block) :
    g'.rulesIn (b.rename ρ) = (g.rulesIn b).map (Rule.rename ρ) := by
  simp [rulesIn, Block.rename, h.rules]

theorem rulesOf_eq (hρ : Function.Injective ρ) (x : Symbol) :
    g'.rulesOf (ρ x) = (g.rulesOf x).map fun (r, rule) => (r, rule.rename ρ) := by
  have hblock : g'.block? (ρ x) = (g.block? x).map (Block.rename ρ) := by
    simp [block?, h.blocks, List.find?_map, Function.comp_def, Block.rename, hρ.beq_eq]
  rw [rulesOf, rulesOf, hblock]
  cases g.block? x with
  | none => rfl
  | some b => exact (congrArg _ (h.rulesIn_eq b)).trans (List.zip_map_right ..)

/-- If symbols keep their names, then nothing changes in what is written. -/
theorem display_eq (hρ : Function.Injective ρ) (hname : ∀ x, g'.name (ρ x) = g.name x) :
    g'.display = g.display := by
  have hrhs : ∀ rhs : List Symbol, g'.rhsText (rhs.map ρ) = g.rhsText rhs := by
    simp [rhsText, names, Function.comp_def, hname]
  have hline : ∀ x, g'.displayLine (ρ x) = g.displayLine x := by
    intro x
    simp [displayLine, hname, h.rulesOf_eq hρ, Function.comp_def, Rule.rename, hrhs]
  simp [display, h.nonterminals_eq, Function.comp_def, hline]

end Grammar.Renames

/-! ## Groups -/

/-- Where each group has its own key, what has a key comes from the groups of this key. -/
theorem filter_flatMap_of_key {α β κ : Type} [DecidableEq κ] {f : α → List β} {group : α → κ}
    {key : β → κ} (h : ∀ a, ∀ b ∈ f a, key b = group a) (xs : List α) (x : κ) :
    (xs.flatMap f).filter (fun b => key b == x) = (xs.filter fun a => group a == x).flatMap f := by
  induction xs with
  | nil => rfl
  | cons a xs ih =>
    rw [List.flatMap_cons, List.filter_append, ih]
    by_cases ha : group a = x
    · have hall : (f a).filter (fun b => key b == x) = f a :=
        List.filter_eq_self.2 fun b hb => by simp [h a b hb, ha]
      simp [hall, ha]
    · have hnone : (f a).filter (fun b => key b == x) = [] :=
        List.filter_eq_nil_iff.2 fun b hb => by simp [h a b hb, ha]
      simp [hnone, ha]

namespace Builder

variable {b b' : Builder} {start : Symbol}

theorem lhs_of_mem_rulesFor {x : Symbol} {rule : Rule} (h : rule ∈ b.rulesFor x) : rule.lhs = x :=
  beq_iff_eq.1 (List.mem_filter.1 h).2

/-- Every rule is put with the rules of its left-hand side, and stays among them where it was. -/
theorem filter_flatMap_rulesFor (b : Builder) {xs : List Symbol} (hnodup : xs.Nodup) (x : Symbol) :
    (xs.flatMap b.rulesFor).filter (fun rule => rule.lhs == x) =
      if x ∈ xs then b.rulesFor x else [] := by
  rw [filter_flatMap_of_key (fun _ _ => lhs_of_mem_rulesFor), List.filter_beq, hnodup.count]
  split <;> simp

theorem rules_layout (b : Builder) (start : Symbol) :
    (b.layout start).rules.toList = (b.graph.order start).flatMap b.rulesFor := rfl

/-- In a layout every nonterminal has the rules that were collected for it. -/
theorem filter_rules_layout (hlhs : ∀ rule ∈ b.rules, rule.lhs ∈ b.declared)
    (hnodup : b.declared.toList.Nodup) (start x : Symbol) :
    (b.layout start).rules.toList.filter (fun rule => rule.lhs == x) = b.rulesFor x := by
  have horder : (b.graph.order start).Nodup := RuleGraph.nodup_order hnodup start
  rw [rules_layout, filter_flatMap_rulesFor b horder x]
  split
  · rfl
  · next hx =>
    refine (List.filter_eq_nil_iff.2 fun rule hrule heq => ?_).symm
    rw [mem_order] at hx
    exact hx (beq_iff_eq.1 heq ▸ hlhs rule (Array.mem_toList_iff.1 hrule))

/-- The second builder has collected what the first one lays out, with other symbols. -/
structure Renames (ρ : Symbol → Symbol) (b b' : Builder) (start : Symbol) : Prop where
  endOfInput : ρ Grammar.endOfInput = Grammar.endOfInput
  declared : b'.declared.toList = (b.layout start).nonterminals.map ρ
  rules : b'.rules.toList = (b.layout start).rules.toList.map (Rule.rename ρ)

namespace Renames

variable (hρ : Function.Injective ρ) (h : Renames ρ b b' start)
include hρ h

theorem mem_declared (x : Symbol) : ρ x ∈ b'.declared ↔ x ∈ b.declared := by
  rw [← Array.mem_toList_iff, h.declared, List.mem_map_of_injective hρ, nonterminals_layout,
    mem_order]

theorem contains_nonterminalSet (x : Symbol) :
    b'.nonterminalSet.contains (ρ x) = b.nonterminalSet.contains x := by
  rw [Bool.eq_iff_iff, Builder.contains_nonterminalSet, Builder.contains_nonterminalSet,
    h.mem_declared hρ]

variable (hlhs : ∀ rule ∈ b.rules, rule.lhs ∈ b.declared)
include hlhs

theorem mem_mentioned (x : Symbol) : ρ x ∈ b'.mentioned ↔ x ∈ b.mentioned := by
  have hmap : b'.mentioned = ((b.layout start).rules.toList.flatMap Rule.rhs).map ρ := by
    rw [mentioned, h.rules, List.flatMap_map, List.map_flatMap]
    rfl
  rw [hmap, List.mem_map_of_injective hρ, mentioned, List.mem_flatMap, List.mem_flatMap]
  simp only [Array.mem_toList_iff, mem_rules_layout]
  refine exists_congr fun rule => ⟨fun hrule => ⟨hrule.1.2, hrule.2⟩, fun hrule => ?_⟩
  exact ⟨⟨hlhs rule hrule.1, hrule.1⟩, hrule.2⟩

theorem contains_terminalSet (x : Symbol) :
    b'.terminalSet.contains (ρ x) = b.terminalSet.contains x := by
  have hend : ρ x = Grammar.endOfInput ↔ x = Grammar.endOfInput := by
    conv_lhs => rw [← h.endOfInput]
    exact hρ.eq_iff
  rw [Bool.eq_iff_iff, Builder.contains_terminalSet, Builder.contains_terminalSet, hend,
    h.mem_declared hρ, h.mem_mentioned hρ hlhs]

variable (hnodup : b.declared.toList.Nodup)
include hnodup

theorem rulesFor (x : Symbol) : b'.rulesFor (ρ x) = (b.rulesFor x).map (Rule.rename ρ) := by
  rw [Builder.rulesFor, h.rules, List.filter_map, ← filter_rules_layout hlhs hnodup start x]
  simp only [Function.comp_def, Rule.rename, hρ.beq_eq]

theorem graph : b.graph.Renames ρ b'.graph where
  nonterminals := h.contains_nonterminalSet hρ
  mentions x := by
    simp [Builder.graph, h.rulesFor hρ hlhs hnodup, List.flatMap_map, List.map_flatMap, Rule.rename]

theorem layout : (b.layout start).Renames ρ (b'.layout (ρ start)) := by
  have horder : b'.graph.order (ρ start) = (b.graph.order start).map ρ := by
    refine (h.graph hρ hlhs hnodup).order_eq hρ (contains_graph b) hnodup ?_
    rw [← nonterminals_layout]
    exact h.declared
  refine ⟨rfl, h.contains_terminalSet hρ hlhs, h.contains_nonterminalSet hρ, ?_, ?_⟩
  · simp only [Builder.layout, horder, List.map_map, ← Block.layout_map]
    simp [Function.comp_def, h.rulesFor hρ hlhs hnodup]
  · rw [rules_layout, rules_layout, horder, List.flatMap_map, List.map_flatMap]
    simp only [h.rulesFor hρ hlhs hnodup]

end Renames

end Builder

end Predictive
