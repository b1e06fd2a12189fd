-- SUMMARY: Grammars that a builder makes, and the classification of symbols that all of them have.
import Mathlib.Data.List.Nodup
import Predictive.Grammar.Builder
import Predictive.Proofs.Grammar.Walk

/-!
# Built grammars

A grammar is built if some history of builder steps ends in it. What the later theory needs of a
built grammar is collected in `Grammar.WellFormed`: terminals and nonterminals are kept apart, and
only nonterminals have rules.
-/

namespace Predictive

namespace Grammar

/-- The grammar comes out of a builder. -/
def Built (g : Grammar) : Prop :=
  ∃ steps, (Builder.ofSteps steps).build = .ok g

/-- How the symbols of a grammar are classified. -/
structure WellFormed (g : Grammar) : Prop where
  mem_nonterminals : ∀ x, x ∈ g.nonterminals ↔ g.isNonterminal x = true
  nonterminal_lhs : ∀ rule ∈ g.rules, g.isNonterminal rule.lhs = true
  not_terminal : ∀ x, g.isNonterminal x = true → g.isTerminal x = false
  terminal_endOfInput : g.isTerminal endOfInput = true

theorem mem_terminals (g : Grammar) (x : Symbol) : x ∈ g.terminals ↔ g.isTerminal x = true :=
  SymbolSet.mem_toList

theorem nodup_terminals (g : Grammar) : g.terminals.Nodup := by
  have hinj : Function.Injective Symbol.mk := fun i j h => Symbol.mk.inj h
  exact (List.Nodup.map hinj List.nodup_range).filter _

theorem mem_rules_of_rule? {g : Grammar} {r : RuleId} {rule : Rule} (h : g.rule? r = some rule) :
    rule ∈ g.rules :=
  Array.mem_of_getElem? h

theorem exists_rule?_of_mem {g : Grammar} {rule : Rule} (h : rule ∈ g.rules) :
    ∃ r, g.rule? r = some rule := by
  obtain ⟨i, hi⟩ := Array.mem_iff_getElem?.1 h
  exact ⟨⟨i⟩, hi⟩

namespace WellFormed

variable {g : Grammar} (hwf : g.WellFormed)
include hwf

theorem nonterminal_of_rule? {r : RuleId} {rule : Rule} (h : g.rule? r = some rule) :
    g.isNonterminal rule.lhs = true :=
  hwf.nonterminal_lhs rule (mem_rules_of_rule? h)

theorem ne_endOfInput {x : Symbol} (hx : g.isNonterminal x = true) : x ≠ endOfInput := by
  rintro rfl
  simpa [hwf.terminal_endOfInput] using hwf.not_terminal _ hx

end WellFormed

end Grammar

/-! ## Laying out -/

theorem Block.map_lhs_layout (first : Nat) (sizes : List (Symbol × Nat)) :
    (Block.layout first sizes).map Block.lhs = sizes.map Prod.fst := by
  induction sizes generalizing first with
  | nil => rfl
  | cons size sizes ih => simp [Block.layout, ih]

/-- Blocks that are laid out by the numbers of their rules cut the sequence of all rules where these
    rules begin and end. -/
theorem Block.find?_layout (f : Symbol → List Rule) {xs : List Symbol} (hnodup : xs.Nodup)
    {x : Symbol} (hx : x ∈ xs) (before : List Rule) :
    ∃ block, (layout before.length (xs.map fun y => (y, (f y).length))).find?
        (fun block => block.lhs == x) = some block ∧
      ((before ++ xs.flatMap f).drop block.first).take block.count = f x := by
  induction xs generalizing before with
  | nil => cases hx
  | cons y xs ih =>
    obtain ⟨hy, hxs⟩ := List.nodup_cons.1 hnodup
    by_cases hyx : y = x
    · subst hyx
      refine ⟨⟨y, before.length, (f y).length⟩, by simp [layout], ?_⟩
      simp
    · obtain ⟨block, hfind, hrules⟩ :=
        ih hxs ((List.mem_cons.1 hx).resolve_left (Ne.symm hyx)) (before ++ f y)
      refine ⟨block, ?_, ?_⟩
      · simpa [layout, hyx] using hfind
      · simpa using hrules

namespace Builder

variable {b : Builder} {g : Grammar}

theorem contains_nonterminalSet (b : Builder) (x : Symbol) :
    b.nonterminalSet.contains x = true ↔ x ∈ b.declared := by
  rw [nonterminalSet, SymbolSet.contains_foldl_insert]
  simp

theorem contains_terminalSet (b : Builder) (x : Symbol) :
    b.terminalSet.contains x = true ↔
      x = Grammar.endOfInput ∨ x ∈ b.mentioned ∧ x ∉ b.declared := by
  have hnot : b.nonterminalSet.contains x = false ↔ x ∉ b.declared := by
    rw [← contains_nonterminalSet b x, Bool.not_eq_true]
  simp only [terminalSet, SymbolSet.contains_foldl_insert, List.mem_cons, List.mem_filter,
    Bool.not_eq_true', hnot, SymbolSet.contains_filled_false, Bool.false_eq_true, or_false]

theorem contains_graph (b : Builder) (x : Symbol) :
    b.graph.nonterminals.contains x = true ↔ x ∈ b.graph.declared := by
  simp [graph, contains_nonterminalSet]

theorem mem_order (b : Builder) (start x : Symbol) :
    x ∈ b.graph.order start ↔ x ∈ b.declared := by
  simpa [graph] using RuleGraph.mem_order (contains_graph b) start x

/-- The order begins with the start symbol if this is a nonterminal. -/
theorem head?_order {start : Symbol} (hstart : start ∈ b.declared) :
    (b.graph.order start).head? = some start :=
  RuleGraph.head?_order (contains_graph b)
    ((contains_graph b start).2 (Array.mem_toList_iff.2 hstart))

theorem nonterminals_layout (b : Builder) (start : Symbol) :
    (b.layout start).nonterminals = b.graph.order start := by
  simp [Grammar.nonterminals, layout, Block.map_lhs_layout, Function.comp_def]

/-- The rules of a nonterminal are the ones that were added for it, in the same order. -/
theorem rulesOf_layout (hnodup : b.declared.toList.Nodup) (start : Symbol) {x : Symbol}
    (hx : x ∈ b.declared) : ((b.layout start).rulesOf x).map Prod.snd = b.rulesFor x := by
  have horder : (b.graph.order start).Nodup := RuleGraph.nodup_order hnodup start
  obtain ⟨block, hfind, hrules⟩ :=
    Block.find?_layout b.rulesFor horder ((mem_order b start x).2 hx) []
  have hblock : (b.layout start).block? x = some block := hfind
  have hin : (b.layout start).rulesIn block = b.rulesFor x := by
    simpa [Grammar.rulesIn, layout] using hrules
  have hlength : (b.rulesFor x).length ≤ block.ruleIds.length := by
    have hids : block.ruleIds.length = block.count := by simp [Block.ruleIds]
    rw [hids, ← hrules]
    exact List.length_take_le _ _
  rw [Grammar.rulesOf, hblock]
  dsimp only
  rw [hin, List.map_snd_zip hlength]

theorem mem_rules_layout {b : Builder} {start : Symbol} {rule : Rule} :
    rule ∈ (b.layout start).rules ↔ rule.lhs ∈ b.declared ∧ rule ∈ b.rules := by
  simp only [layout, List.mem_toArray, List.mem_flatMap, mem_order, rulesFor, List.mem_filter,
    Array.mem_toList_iff, beq_iff_eq]
  refine ⟨?_, ?_⟩
  · rintro ⟨lhs, hdecl, hmem, rfl⟩
    exact ⟨hdecl, hmem⟩
  · rintro ⟨hdecl, hmem⟩
    exact ⟨rule.lhs, hdecl, hmem, rfl⟩

theorem mem_mentioned_of_layout {start : Symbol} {rule : Rule}
    (hrule : rule ∈ (b.layout start).rules) {x : Symbol} (hx : x ∈ rule.rhs) : x ∈ b.mentioned :=
  List.mem_flatMap.2 ⟨rule, Array.mem_toList_iff.2 (mem_rules_layout.1 hrule).2, hx⟩

/-! ## Building -/

/-- A grammar is only built from a builder without a fault. -/
theorem build_eq_ok (h : b.build = .ok g) :
    b.fault? = none ∧ ∃ start, b.start? = some start ∧ g = b.layout start := by
  unfold build at h
  split at h
  · cases h
  · cases h
  · next hfault hstart =>
    cases h
    exact ⟨hfault, _, hstart, rfl⟩

/-- A builder without a fault lays out a grammar. -/
theorem build_of_fault? {start : Symbol} (hfault : b.fault? = none)
    (hstart : b.start? = some start) : b.build = .ok (b.layout start) := by
  simp [build, hfault, hstart]

theorem foreign?_eq_none {x : Symbol} : b.foreign? x = none ↔ x.id < b.table.size := by
  simp [foreign?, SymbolTable.issued]

/-- Without a fault there is a start symbol, and every symbol that the builder has collected is one
    of its own. -/
theorem exists_start_of_fault? (h : b.fault? = none) :
    ∃ start, b.start? = some start ∧ start.id < b.table.size ∧
      (∀ x ∈ b.declared, x.id < b.table.size ∧ x ≠ Grammar.endOfInput) ∧
      ∀ x ∈ b.mentioned, x.id < b.table.size := by
  unfold fault? at h
  split at h
  · cases h
  · next start hstart =>
    simp only [Option.orElse_eq_orElse, Option.orElse_eq_or, Option.or_eq_none_iff,
      List.findSome?_eq_none_iff, foreign?_eq_none, lhsFault?, Array.mem_toList_iff,
      ite_eq_right_iff, reduceCtorEq, imp_false] at h
    exact ⟨start, hstart, h⟩

/-- Without a fault the end of input is no nonterminal. -/
theorem endOfInput_not_declared (h : b.fault? = none) : Grammar.endOfInput ∉ b.declared := by
  obtain ⟨start, -, -, hdeclared, -⟩ := exists_start_of_fault? h
  exact fun hmem => (hdeclared _ hmem).2 rfl

theorem wellFormed_of_build (h : b.build = .ok g) : g.WellFormed := by
  obtain ⟨hfault, start, -, rfl⟩ := build_eq_ok h
  refine ⟨?_, ?_, ?_, ?_⟩
  · intro x
    rw [nonterminals_layout, mem_order]
    exact (contains_nonterminalSet b x).symm
  · intro rule hrule
    exact (contains_nonterminalSet b _).2 (mem_rules_layout.1 hrule).1
  · intro x hx
    have hdecl : x ∈ b.declared := (contains_nonterminalSet b x).1 hx
    refine Bool.eq_false_iff.2 fun hterm => ?_
    rcases (contains_terminalSet b x).1 hterm with rfl | ⟨-, hnot⟩
    · exact endOfInput_not_declared hfault hdecl
    · exact hnot hdecl
  · exact (contains_terminalSet b _).2 (.inl rfl)

/-- Every symbol of a rule is classified. -/
theorem classified_of_build (h : b.build = .ok g) {rule : Rule} (hrule : rule ∈ g.rules)
    {x : Symbol} (hx : x ∈ rule.rhs) : g.isTerminal x = true ∨ g.isNonterminal x = true := by
  obtain ⟨-, start, -, rfl⟩ := build_eq_ok h
  by_cases hdecl : x ∈ b.declared
  · exact .inr ((contains_nonterminalSet b x).2 hdecl)
  · exact .inl ((contains_terminalSet b x).2 (.inr ⟨mem_mentioned_of_layout hrule hx, hdecl⟩))

end Builder

namespace Grammar

theorem Built.wellFormed {g : Grammar} (h : g.Built) : g.WellFormed := by
  obtain ⟨steps, hbuild⟩ := h
  exact Builder.wellFormed_of_build hbuild

theorem Built.classified {g : Grammar} (h : g.Built) {rule : Rule} (hrule : rule ∈ g.rules)
    {x : Symbol} (hx : x ∈ rule.rhs) : g.isTerminal x = true ∨ g.isNonterminal x = true := by
  obtain ⟨steps, hbuild⟩ := h
  exact Builder.classified_of_build hbuild hrule hx

/-- A built grammar has no symbols but those of its own table. -/
theorem Built.lt_size {g : Grammar} (h : g.Built) :
    g.start.id < g.table.size ∧ ∀ rule ∈ g.rules, ∀ x ∈ rule.rhs, x.id < g.table.size := by
  obtain ⟨steps, hbuild⟩ := h
  obtain ⟨hfault, start, hstart, rfl⟩ := Builder.build_eq_ok hbuild
  obtain ⟨start', hstart', hlt, -, hmentioned⟩ := Builder.exists_start_of_fault? hfault
  obtain rfl := Option.some.inj (hstart.symm.trans hstart')
  exact ⟨hlt, fun rule hrule x hx => hmentioned x (Builder.mem_mentioned_of_layout hrule hx)⟩

/-! ## A small grammar -/

/-- The steps that collect the rules `S → a S b` and `S → ε`. -/
def nestedSteps : List BuilderStep :=
  [.createSymbol (some "S"), .createSymbol (some "a"), .createSymbol (some "b"),
    .addRules ⟨1⟩ [[⟨2⟩, ⟨1⟩, ⟨3⟩], []]]

/-- The grammar of as many `a` as `b` after them. -/
def nested : Grammar := (Builder.ofSteps nestedSteps).layout ⟨1⟩

theorem built_nested : nested.Built :=
  ⟨nestedSteps, Builder.build_of_fault? (by decide +kernel) rfl⟩

theorem mem_rules_nested {rule : Rule} :
    rule ∈ nested.rules ↔ rule = ⟨⟨1⟩, [⟨2⟩, ⟨1⟩, ⟨3⟩]⟩ ∨ rule = ⟨⟨1⟩, []⟩ := by
  have hrules : nested.rules = #[⟨⟨1⟩, [⟨2⟩, ⟨1⟩, ⟨3⟩]⟩, ⟨⟨1⟩, []⟩] := by decide +kernel
  simp [hrules]

end Grammar

end Predictive
