-- SUMMARY: A walk visits what the start symbol leads to, each symbol after one that mentions it, and then it ends.
import Mathlib.Logic.Relation
import Predictive.Proofs.Grammar.History

/-!
# Reachability

The stack of a walk never holds a symbol twice, and none that was visited, so that every step takes
a new symbol off it and the walk is over once all symbols have been visited. What a visited symbol
mentions has been visited too or waits on the stack. At the end nothing waits, hence the symbols
visited are the nonterminals to which rules lead from the start symbol, and each of them was put on
the stack by one visited before it.
-/

namespace Predictive

/-! ## Steps -/

namespace Walk

variable {graph : RuleGraph} {w w' : Walk} {x y : Symbol} {rest mentions : List Symbol}

/-- The visited symbols in the order of their visits. -/
def trail (w : Walk) : List Symbol := w.visits.toList.map Visit.symbol

/-- The stack agrees with the two sets. In particular the topmost symbol has not been visited. -/
structure Tidy (w : Walk) : Prop where
  nodup : w.stack.Nodup
  unvisited : ∀ x ∈ w.stack, w.visited.contains x = false
  waiting : ∀ x, w.waiting.contains x = true ↔ x ∈ w.stack

/-- From `w` to `w'` the symbol `x` was visited, which was on top of `rest`, and put `next` on the
    stack. -/
structure Visits (graph : RuleGraph) (w w' : Walk) (x : Symbol) (rest next : List Symbol) :
    Prop where
  nodup_next : next.Nodup
  mem_next : ∀ y, y ∈ next ↔ y ∈ graph.mentions x ∧ graph.nonterminals.contains y = true ∧
    y ∉ w.stack ∧ w.visited.contains y = false
  stack : w'.stack = next ++ rest
  waiting : ∀ y, w'.waiting.contains y = true ↔ y ∈ w'.stack
  visited : ∀ y, w'.visited.contains y = true ↔ y = x ∨ w.visited.contains y = true
  trail : w'.trail = w.trail ++ [x]

theorem step_of_nil (graph : RuleGraph) (h : w.stack = []) : w.step graph = w := by
  simp [Walk.step, h]

/-- A walk that is over stays as it is. -/
theorem run_of_nil (graph : RuleGraph) (h : w.stack = []) (n : Nat) : w.run graph n = w := by
  induction n with
  | zero => rfl
  | succ n ih => rw [Walk.run, step_of_nil graph h, ih]

/-- The topmost symbol is new, so a step always visits it. -/
theorem Tidy.step_visits (h : w.Tidy) (graph : RuleGraph) (hstack : w.stack = x :: rest) :
    ∃ next, Visits graph w (w.step graph) x rest next := by
  have hnodup : (x :: rest).Nodup := hstack ▸ h.nodup
  have hx : w.visited.contains x = false := h.unvisited x (by simp [hstack])
  let taken : Walk := ⟨rest, w.waiting.erase x, w.visited.insert x, w.visits⟩
  let next := taken.discover graph (graph.mentions x)
  have hwaiting : ∀ y, taken.waiting.contains y = true ↔ y ∈ rest := by
    intro y
    simp only [taken, SymbolSet.contains_erase, Bool.and_eq_true, decide_eq_true_eq, h.waiting,
      hstack, List.mem_cons]
    refine ⟨fun hy => hy.2.resolve_left hy.1, fun hy => ⟨?_, .inr hy⟩⟩
    exact ne_of_mem_of_not_mem hy (List.nodup_cons.1 hnodup).1
  have hstep : w.step graph = { taken with
      stack := next ++ rest
      waiting := next.foldl SymbolSet.insert taken.waiting
      visits := w.visits.push ⟨x, next⟩ } := by
    simp [Walk.step, hstack, hx, taken, next]
  refine ⟨next, nodup_eraseDups _, fun y => ?_, by rw [hstep], fun y => ?_, fun y => ?_, ?_⟩
  · have hrest : taken.waiting.contains y = false ↔ y ∉ rest := by
      rw [← hwaiting, Bool.not_eq_true]
    simp only [next, discover, List.mem_eraseDups, List.mem_filter, Bool.and_eq_true,
      Bool.not_eq_true', hrest]
    simp only [taken, SymbolSet.contains_insert, Bool.or_eq_false_iff, decide_eq_false_iff_not,
      hstack, List.mem_cons, not_or]
    tauto
  · rw [hstep, SymbolSet.contains_foldl_insert, hwaiting, List.mem_append]
  · rw [hstep]
    simp [taken, SymbolSet.contains_insert]
  · rw [hstep]
    simp [trail]

theorem Tidy.init (graph : RuleGraph) (start : Symbol) : (Walk.init graph start).Tidy := by
  unfold Walk.init
  split
  · exact ⟨by simp, by simp, by simp [SymbolSet.contains_insert]⟩
  · exact ⟨by simp, by simp, by simp⟩

theorem Tidy.step (h : w.Tidy) (graph : RuleGraph) : (w.step graph).Tidy := by
  cases hstack : w.stack with
  | nil => rwa [step_of_nil graph hstack]
  | cons x rest =>
    obtain ⟨next, hvisits⟩ := h.step_visits graph hstack
    obtain ⟨hx, hrest⟩ := List.nodup_cons.1 (hstack ▸ h.nodup)
    have hrest' : ∀ y ∈ rest, y ∈ w.stack := fun y hy => by simp [hstack, hy]
    refine ⟨?_, fun y hy => ?_, hvisits.waiting⟩
    · rw [hvisits.stack]
      refine List.nodup_append.2 ⟨hvisits.nodup_next, hrest, ?_⟩
      rintro y hnext z hz rfl
      exact ((hvisits.mem_next y).1 hnext).2.2.1 (hrest' y hz)
    · rw [← Bool.not_eq_true, hvisits.visited, not_or, Bool.not_eq_true]
      rw [hvisits.stack, List.mem_append] at hy
      rcases hy with hy | hy
      · obtain ⟨-, -, hstack', hvisited⟩ := (hvisits.mem_next y).1 hy
        exact ⟨fun hyx => hstack' (by simp [hstack, hyx]), hvisited⟩
      · exact ⟨ne_of_mem_of_not_mem hy hx, h.unvisited y (hrest' y hy)⟩

theorem Tidy.run (h : w.Tidy) (graph : RuleGraph) (n : Nat) : (w.run graph n).Tidy := by
  induction n generalizing w with
  | zero => exact h
  | succ n ih => exact ih (h.step graph)

theorem Tidy.length_trail_run (h : w.Tidy) (graph : RuleGraph) (n : Nat)
    (hne : (w.run graph n).stack ≠ []) :
    (w.run graph n).trail.length = w.trail.length + n := by
  induction n generalizing w with
  | zero => rfl
  | succ n ih =>
    cases hstack : w.stack with
    | nil =>
      rw [run_of_nil graph hstack] at hne
      exact absurd hstack hne
    | cons x rest =>
      obtain ⟨next, hvisits⟩ := h.step_visits graph hstack
      have hlength := ih (h.step graph) hne
      rw [hvisits.trail, List.length_append, List.length_singleton] at hlength
      rw [Walk.run, hlength, Nat.add_assoc, Nat.add_comm 1 n]

end Walk

/-! ## What a walk finds -/

namespace RuleGraph

variable {graph : RuleGraph} {start x y : Symbol} {xs : List Symbol}

/-- Rules lead from one symbol to another by nonterminals only. -/
def Reaches (graph : RuleGraph) : Symbol → Symbol → Prop :=
  Relation.ReflTransGen fun x y => y ∈ graph.mentions x ∧ graph.nonterminals.contains y = true

/-- The symbol is the first one, or one of `xs` mentions it. -/
def FoundFrom (graph : RuleGraph) (start : Symbol) (xs : List Symbol) (x : Symbol) : Prop :=
  x = start ∨ ∃ y ∈ xs, x ∈ graph.mentions y

theorem FoundFrom.append (h : graph.FoundFrom start xs x) (ys : List Symbol) :
    graph.FoundFrom start (xs ++ ys) x :=
  h.imp_right fun ⟨y, hy, hx⟩ => ⟨y, List.mem_append_left ys hy, hx⟩

end RuleGraph

namespace Walk

variable {graph : RuleGraph} {w w' : Walk} {start x y : Symbol} {rest next : List Symbol}

/-- The symbol has been visited or is going to be. -/
def Covers (w : Walk) (x : Symbol) : Prop := x ∈ w.trail ∨ x ∈ w.stack

/-- What is known of the symbols that a walk has come upon. -/
structure Explores (graph : RuleGraph) (start : Symbol) (w : Walk) : Prop where
  first : graph.nonterminals.contains start = true → w.Covers start
  closed : ∀ x ∈ w.trail, ∀ y ∈ graph.mentions x, graph.nonterminals.contains y = true → w.Covers y
  reached : ∀ x, w.Covers x → graph.Reaches start x
  stack : ∀ x ∈ w.stack, graph.FoundFrom start w.trail x
  trail : ∀ before x after, w.trail = before ++ x :: after → graph.FoundFrom start before x

theorem trail_init (graph : RuleGraph) (start : Symbol) : (Walk.init graph start).trail = [] := by
  unfold Walk.init
  split <;> rfl

theorem mem_stack_init :
    x ∈ (Walk.init graph start).stack ↔ x = start ∧ graph.nonterminals.contains start = true := by
  unfold Walk.init
  split <;> simp_all

theorem Explores.init (graph : RuleGraph) (start : Symbol) :
    Explores graph start (Walk.init graph start) where
  first h := .inr (mem_stack_init.2 ⟨rfl, h⟩)
  closed := by simp [trail_init]
  reached x hx := by
    rcases hx with hx | hx
    · simp [trail_init] at hx
    · rw [(mem_stack_init.1 hx).1]
      exact .refl
  stack x hx := .inl (mem_stack_init.1 hx).1
  trail := by simp [trail_init]

/-- A visit covers what was covered and what it puts on the stack. -/
theorem Visits.covers_iff (h : Visits graph w w' x rest next) (hstack : w.stack = x :: rest) :
    w'.Covers y ↔ w.Covers y ∨ y ∈ next := by
  simp only [Covers, h.trail, h.stack, hstack, List.mem_append, List.mem_cons]
  tauto

theorem Explores.visit (h : Explores graph start w) (hsound : Sound graph w)
    (hstack : w.stack = x :: rest) (hvisits : Visits graph w w' x rest next) :
    Explores graph start w' := by
  have hx : x ∈ w.stack := by simp [hstack]
  have hcovers : ∀ y, w'.Covers y ↔ w.Covers y ∨ y ∈ next := fun y => hvisits.covers_iff hstack
  have hfound : ∀ y ∈ next, graph.FoundFrom start (w.trail ++ [x]) y :=
    fun y hy => .inr ⟨x, by simp, ((hvisits.mem_next y).1 hy).1⟩
  refine ⟨fun hstart => (hcovers _).2 (.inl (h.first hstart)), ?_, ?_, ?_, ?_⟩
  · intro y hy z hz hnonterminal
    rw [hcovers]
    rw [hvisits.trail, List.mem_append, List.mem_singleton] at hy
    rcases hy with hy | rfl
    · exact .inl (h.closed y hy z hz hnonterminal)
    · by_cases hcovered : w.Covers z
      · exact .inl hcovered
      · obtain ⟨htrail, hwaits⟩ := not_or.1 hcovered
        have hunvisited : w.visited.contains z = false :=
          Bool.eq_false_iff.2 fun hvisited => htrail ((hsound.visited z).1 hvisited)
        exact .inr ((hvisits.mem_next z).2 ⟨hz, hnonterminal, hwaits, hunvisited⟩)
  · intro y hy
    rcases (hcovers y).1 hy with hy | hy
    · exact h.reached y hy
    · obtain ⟨hmentions, hnonterminal, -⟩ := (hvisits.mem_next y).1 hy
      exact (h.reached x (.inr hx)).tail ⟨hmentions, hnonterminal⟩
  · intro y hy
    rw [hvisits.trail]
    rw [hvisits.stack, List.mem_append] at hy
    rcases hy with hy | hy
    · exact hfound y hy
    · exact (h.stack y (by simp [hstack, hy])).append [x]
  · intro before y after heq
    rw [hvisits.trail] at heq
    rcases List.eq_nil_or_concat after with rfl | ⟨after, z, rfl⟩
    · obtain ⟨rfl, heq⟩ := List.append_inj' heq rfl
      obtain rfl : x = y := by simpa using heq
      exact h.stack x hx
    · rw [List.concat_eq_append, ← List.cons_append, ← List.append_assoc] at heq
      exact h.trail before y after (List.append_inj' heq rfl).1

theorem Explores.run (h : Explores graph start w) (htidy : w.Tidy) (hsound : Sound graph w)
    (n : Nat) : Explores graph start (w.run graph n) := by
  induction n generalizing w with
  | zero => exact h
  | succ n ih =>
    refine ih ?_ (htidy.step graph) hsound.step
    cases hstack : w.stack with
    | nil => rwa [step_of_nil graph hstack]
    | cons x rest =>
      obtain ⟨next, hvisits⟩ := htidy.step_visits graph hstack
      exact h.visit hsound hstack hvisits

end Walk

/-! ## Whole walks -/

namespace RuleGraph

variable {graph : RuleGraph} {start x : Symbol}

/-- The walk as it is after `n` steps. -/
def walkFor (graph : RuleGraph) (start : Symbol) (n : Nat) : Walk :=
  (Walk.init graph start).run graph n

theorem tidy_walkFor (graph : RuleGraph) (start : Symbol) (n : Nat) :
    (graph.walkFor start n).Tidy :=
  (Walk.Tidy.init graph start).run graph n

/-- As long as anything waits, each step has made a visit. -/
theorem length_trail_walkFor (graph : RuleGraph) (start : Symbol) (n : Nat)
    (hne : (graph.walkFor start n).stack ≠ []) : (graph.walkFor start n).trail.length = n := by
  rw [walkFor, (Walk.Tidy.init graph start).length_trail_run graph n hne, Walk.trail_init,
    List.length_nil, Nat.zero_add]

theorem explores_walk (graph : RuleGraph) (start : Symbol) :
    Walk.Explores graph start (graph.walk start) :=
  (Walk.Explores.init graph start).run (.init graph start) (.init graph start) _

/-- A walk over declared nonterminals comes to an end. -/
theorem stack_walk (hdecl : ∀ x, graph.nonterminals.contains x = true → x ∈ graph.declared)
    (start : Symbol) : (graph.walk start).stack = [] := by
  have hsound := graph.sound_walk start
  by_contra hne
  have hlength : (graph.walk start).trail.length = graph.declared.length :=
    graph.length_trail_walkFor start _ hne
  have hsubset : (graph.walk start).trail ⊆ graph.declared :=
    fun x hx => hdecl x (hsound.visits x hx)
  have hperm : (graph.walk start).trail.Perm graph.declared :=
    (List.subperm_of_subset hsound.nodup hsubset).perm_of_length_le (Nat.le_of_eq hlength.symm)
  obtain ⟨x, rest, hstack⟩ := List.exists_cons_of_ne_nil hne
  have hx : x ∈ (graph.walk start).stack := by simp [hstack]
  have hvisited : x ∈ (graph.walk start).trail := hperm.mem_iff.2 (hdecl x (hsound.stack x hx))
  have hunvisited := (graph.tidy_walkFor start _).unvisited x hx
  rw [Bool.eq_false_iff] at hunvisited
  exact hunvisited ((hsound.visited x).2 hvisited)

/-- A walk visits what can be reached, and nothing else. -/
theorem mem_trail_walk (hdecl : ∀ x, graph.nonterminals.contains x = true → x ∈ graph.declared)
    (hstart : graph.nonterminals.contains start = true) :
    x ∈ (graph.walk start).trail ↔ graph.Reaches start x := by
  have hexplores := graph.explores_walk start
  have hcovers : ∀ y, (graph.walk start).Covers y → y ∈ (graph.walk start).trail := by
    intro y hy
    simpa [Walk.Covers, stack_walk hdecl start] using hy
  refine ⟨fun hx => hexplores.reached x (.inl hx), fun h => ?_⟩
  induction h with
  | refl => exact hcovers start (hexplores.first hstart)
  | tail _ hedge ih => exact hcovers _ (hexplores.closed _ ih _ hedge.1 hedge.2)

theorem order_eq (graph : RuleGraph) (start : Symbol) :
    graph.order start = (graph.walk start).trail ++
      graph.declared.filter fun x => x ∉ (graph.walk start).trail := by
  have hvisited : ∀ x, (!(graph.walk start).visited.contains x) =
      decide (x ∉ (graph.walk start).trail) := by
    intro x
    rw [Bool.eq_iff_iff, Bool.not_eq_true', decide_eq_true_iff, Bool.eq_false_iff]
    exact not_congr ((graph.sound_walk start).visited x)
  simp only [order, hvisited]
  rfl

/-- The walk begins with the start symbol, and comes upon all others by what it has visited. -/
theorem exists_found (hdecl : ∀ x, graph.nonterminals.contains x = true ↔ x ∈ graph.declared)
    (hstart : graph.nonterminals.contains start = true) :
    ∃ found, (graph.walk start).trail = start :: found ∧
      ∀ before x after, found = before ++ x :: after →
        ∃ y ∈ start :: before, x ∈ graph.mentions y := by
  have hmem := (mem_trail_walk (fun x => (hdecl x).1) hstart).2 .refl
  obtain ⟨x, found, htrail⟩ := List.exists_cons_of_ne_nil (List.ne_nil_of_mem hmem)
  have hhead := head?_order hdecl hstart
  rw [order_eq, htrail] at hhead
  obtain rfl : x = start := by simpa using hhead
  refine ⟨found, htrail, fun before y after hfound => ?_⟩
  have hfrom := (graph.explores_walk x).trail (x :: before) y after (by rw [htrail, hfound]; rfl)
  refine hfrom.resolve_left ?_
  rintro rfl
  have hnodup : (graph.walk y).trail.Nodup := (graph.sound_walk y).nodup
  simp [htrail, hfound] at hnodup

/-- A walk that cannot begin leaves the order as it is. -/
theorem order_of_not_nonterminal (hstart : graph.nonterminals.contains start = false) :
    graph.order start = graph.declared := by
  have hwalk : graph.walk start = ⟨[], .empty, .empty, #[]⟩ := by
    rw [walk, Walk.init, hstart]
    exact Walk.run_of_nil graph rfl _
  simp [order_eq, hwalk, Walk.trail]

end RuleGraph

/-! ## Built grammars -/

namespace Grammar

/-- A rule of `x` has `y` on its right. -/
def Mentions (g : Grammar) (x y : Symbol) : Prop :=
  ∃ rule ∈ g.rules, rule.lhs = x ∧ y ∈ rule.rhs

/-- Right-hand sides lead from one symbol to another. -/
def Reaches (g : Grammar) : Symbol → Symbol → Prop := Relation.ReflTransGen g.Mentions

/-- The order of the nonterminals. From a start symbol that is one of them come first those it leads
    to, each behind one that mentions it, and then the others as declared. -/
structure Ordered (g : Grammar) (declared : List Symbol) : Prop where
  nodup : g.nonterminals.Nodup
  mem_iff : ∀ x, x ∈ g.nonterminals ↔ x ∈ declared
  of_nonterminal : g.isNonterminal g.start = true → ∃ found,
    g.nonterminals = (g.start :: found) ++ declared.filter (fun x => x ∉ g.start :: found) ∧
    (∀ x, x ∈ g.start :: found ↔ g.isNonterminal x = true ∧ g.Reaches g.start x) ∧
    ∀ before x after, found = before ++ x :: after → ∃ y ∈ g.start :: before, g.Mentions y x
  of_other : g.isNonterminal g.start = false → g.nonterminals = declared

end Grammar

namespace Builder

variable {steps : List BuilderStep} {g : Grammar} {start x y : Symbol}

theorem mem_mentions_graph (start : Symbol) :
    y ∈ (ofSteps steps).graph.mentions x ↔ ((ofSteps steps).layout start).Mentions x y := by
  simp only [graph, rulesFor, Grammar.Mentions, mem_rules_layout, List.mem_flatMap,
    List.mem_filter, Array.mem_toList_iff, beq_iff_eq]
  refine exists_congr fun rule => ⟨?_, ?_⟩
  · rintro ⟨⟨hrule, hlhs⟩, hy⟩
    exact ⟨⟨lhs_mem_declared hrule, hrule⟩, hlhs, hy⟩
  · rintro ⟨⟨-, hrule⟩, hlhs, hy⟩
    exact ⟨⟨hrule, hlhs⟩, hy⟩

theorem mentioning_declared (h : ((ofSteps steps).layout start).Mentions x y) :
    x ∈ (ofSteps steps).graph.declared := by
  obtain ⟨rule, hrule, rfl, -⟩ := h
  exact Array.mem_toList_iff.2 (mem_rules_layout.1 hrule).1

/-- Only nonterminals mention anything, so there are none but nonterminals on the way to one. -/
theorem reaches_graph_iff (hx : (ofSteps steps).graph.nonterminals.contains x = true) :
    (ofSteps steps).graph.Reaches start x ↔
      ((ofSteps steps).layout start).Reaches start x := by
  refine ⟨fun h => ?_, fun h => ?_⟩
  · induction h with
    | refl => exact .refl
    | tail _ hedge ih =>
      have hmentions := (mem_mentions_graph start).1 hedge.1
      exact (ih ((contains_graph _ _).2 (mentioning_declared hmentions))).tail hmentions
  · induction h with
    | refl => exact .refl
    | tail _ hmentions ih =>
      have hedge := (mem_mentions_graph start).2 hmentions
      exact (ih ((contains_graph _ _).2 (mentioning_declared hmentions))).tail ⟨hedge, hx⟩

theorem ordered_layout (steps : List BuilderStep) (start : Symbol) :
    ((ofSteps steps).layout start).Ordered (ofSteps steps).declared.toList := by
  refine ⟨nodup_nonterminals_layout steps start, fun x => ?_, fun hstart => ?_, fun hstart => ?_⟩
  · rw [nonterminals_layout, mem_order, Array.mem_toList_iff]
  · obtain ⟨found, htrail, hfound⟩ := RuleGraph.exists_found (contains_graph (ofSteps steps)) hstart
    refine ⟨found, ?_, fun x => ?_, fun before x after heq => ?_⟩
    · rw [nonterminals_layout, RuleGraph.order_eq]
      exact htrail ▸ rfl
    · have hreaches := RuleGraph.mem_trail_walk (x := x)
        (fun y => (contains_graph (ofSteps steps) y).1) hstart
      have hsound := (ofSteps steps).graph.sound_walk start
      refine ⟨fun hx => ?_, fun ⟨hnonterminal, hx⟩ => ?_⟩
      · have hvisited := htrail ▸ hx
        have hnonterminal := hsound.visits x hvisited
        exact ⟨hnonterminal, (reaches_graph_iff hnonterminal).1 (hreaches.1 hvisited)⟩
      · exact htrail ▸ hreaches.2 ((reaches_graph_iff hnonterminal).2 hx)
    · obtain ⟨y, hy, hmentions⟩ := hfound before x after heq
      exact ⟨y, hy, (mem_mentions_graph start).1 hmentions⟩
  · have hother : (ofSteps steps).graph.nonterminals.contains start = false := hstart
    rw [nonterminals_layout, RuleGraph.order_of_not_nonterminal hother]
    rfl

/-- The walk of a builder that makes a grammar comes to an end. At all times its stack holds what is
    marked as waiting, once and unvisited, so that as many symbols have been visited as steps were
    taken. The nonterminals of the grammar are in the order that the walk finds. -/
theorem walk_of_build (h : (ofSteps steps).build = .ok g) :
    g.nonterminals = (ofSteps steps).graph.order g.start ∧
    ((ofSteps steps).graph.walk g.start).stack = [] ∧
    (∀ n, ((ofSteps steps).graph.walkFor g.start n).Tidy ∧
      (((ofSteps steps).graph.walkFor g.start n).stack ≠ [] →
        ((ofSteps steps).graph.walkFor g.start n).trail.length = n)) ∧
    g.Ordered (steps.filterMap BuilderStep.declared?).eraseDups := by
  obtain ⟨-, start, -, rfl⟩ := build_eq_ok h
  refine ⟨nonterminals_layout _ _, ?_, fun n => ⟨RuleGraph.tidy_walkFor _ _ n, ?_⟩, ?_⟩
  · exact RuleGraph.stack_walk (fun x => (contains_graph _ x).1) _
  · exact RuleGraph.length_trail_walkFor _ _ n
  · rw [← declared_ofSteps]
    exact ordered_layout steps start

/-! ## A symbol that waits twice -/

/-- The steps that collect `U → S`, `S → A B`, `A → B x | S` and `B` without a rule, with the start
    symbol `S`. -/
def pendingSteps : List BuilderStep :=
  [.createSymbol (some "S"), .createSymbol (some "A"), .createSymbol (some "B"),
    .createSymbol (some "x"), .createSymbol (some "U"), .addRules ⟨5⟩ [[⟨1⟩]], .setStart ⟨1⟩,
    .addRules ⟨1⟩ [[⟨2⟩, ⟨3⟩]], .addRules ⟨2⟩ [[⟨3⟩, ⟨4⟩], [⟨1⟩]], .addRules ⟨3⟩ []]

/-- `B` waits already when `A` mentions it, and nothing leads to `U`. -/
theorem walk_of_build_pending : ∃ g, (ofSteps pendingSteps).build = .ok g ∧
    g.nonterminals = [⟨1⟩, ⟨2⟩, ⟨3⟩, ⟨5⟩] ∧
    ((ofSteps pendingSteps).graph.walk g.start).stack = [] ∧
    g.Ordered [⟨5⟩, ⟨1⟩, ⟨2⟩, ⟨3⟩] ∧ g.isNonterminal g.start = true := by
  have hbuild : (ofSteps pendingSteps).build = .ok ((ofSteps pendingSteps).layout ⟨1⟩) :=
    build_of_fault? (by decide +kernel) rfl
  obtain ⟨-, hend, -, hordered⟩ := walk_of_build hbuild
  exact ⟨_, hbuild, by decide +kernel, hend, hordered, by decide +kernel⟩

end Builder

end Predictive
