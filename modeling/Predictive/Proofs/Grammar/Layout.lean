-- SUMMARY: A layout keeps every rule, in the block of its nonterminal, and classifies every symbol.
import Predictive.Proofs.Grammar.Rearrangement

/-!
# Layouts

The blocks of a layout cut the sequence of all rules into the rules of each nonterminal, without a
gap and without an overlap. So what is found by way of the blocks is what a search through all rules
finds: the numbered rules of a symbol, also of one without a block, and the productions.
-/

namespace Predictive

/-! ## Blocks -/

namespace Block

variable {f : Symbol → List Rule}

/-- Each block cuts out the rules that it was laid out for. -/
theorem slice_layout (f : Symbol → List Rule) (xs : List Symbol) (before : List Rule) :
    ∀ block ∈ layout before.length (xs.map fun x => (x, (f x).length)),
      ((before ++ xs.flatMap f).drop block.first).take block.count = f block.lhs := by
  induction xs generalizing before with
  | nil => simp [layout]
  | cons x xs ih =>
    rw [List.map_cons, layout, List.forall_mem_cons, List.flatMap_cons, ← List.append_assoc]
    refine ⟨by simp, fun block hblock => ih (before ++ f x) block ?_⟩
    rwa [List.length_append]

theorem zip_ruleIds (x : Symbol) (first : Nat) (rules : List Rule) :
    (Block.mk x first rules.length).ruleIds.zip rules =
      (rules.zipIdx first).map fun (rule, i) => (⟨i⟩, rule) := by
  induction rules generalizing first with
  | nil => rfl
  | cons rule rules ih => exact congrArg ((⟨first⟩, rule) :: ·) (ih (first + 1))

/-- The blocks number the rules one after the other. -/
theorem flatMap_layout (f : Symbol → List Rule) (xs : List Symbol) (first : Nat) :
    ((layout first (xs.map fun x => (x, (f x).length))).flatMap fun block =>
        block.ruleIds.zip (f block.lhs)) =
      ((xs.flatMap f).zipIdx first).map fun (rule, i) => (⟨i⟩, rule) := by
  induction xs generalizing first with
  | nil => rfl
  | cons x xs ih =>
    rw [List.map_cons, layout, List.flatMap_cons, List.flatMap_cons, List.zipIdx_append,
      List.map_append, ih, zip_ruleIds]

/-- Of blocks of different nonterminals at most one is the block of a symbol. -/
theorem filter_lhs {blocks : List Block} (hnodup : (blocks.map Block.lhs).Nodup) (x : Symbol) :
    (blocks.filter fun block => block.lhs == x) =
      (blocks.find? fun block => block.lhs == x).toList := by
  induction blocks with
  | nil => rfl
  | cons block blocks ih =>
    obtain ⟨hblock, hblocks⟩ := List.nodup_cons.1 hnodup
    by_cases hx : block.lhs = x
    · have hrest : (blocks.filter fun block => block.lhs == x) = [] := by
        refine List.filter_eq_nil_iff.2 fun other hmem heq => hblock ?_
        exact List.mem_map.2 ⟨other, hmem, (beq_iff_eq.1 heq).trans hx.symm⟩
      simp [hrest, hx]
    · simp [hx, ih hblocks]

end Block

/-! ## Layouts -/

namespace Builder

variable {b : Builder} {steps : List BuilderStep} {g : Grammar} {start x : Symbol}

theorem rulesIn_layout {block : Block} (h : block ∈ (b.layout start).blocks) :
    (b.layout start).rulesIn block = b.rulesFor block.lhs := by
  have hslice := Block.slice_layout b.rulesFor (b.graph.order start) [] block h
  simpa [Grammar.rulesIn, layout] using hslice

theorem productions_layout (b : Builder) (start : Symbol) :
    (b.layout start).productions =
      (b.layout start).nonterminals.map fun x => (x, b.rulesFor x) := by
  rw [Grammar.productions, Grammar.nonterminals, List.map_map]
  exact List.map_congr_left fun block hblock => by rw [rulesIn_layout hblock]; rfl

theorem numberedRules_layout (b : Builder) (start : Symbol) :
    (b.layout start).numberedRules =
      (b.layout start).blocks.flatMap fun block => block.ruleIds.zip (b.rulesFor block.lhs) :=
  (Block.flatMap_layout b.rulesFor (b.graph.order start) 0).symm

/-- The block of a symbol holds all its numbered rules, and a symbol without a block has none. -/
theorem rulesOf_eq_filter (hnodup : (b.layout start).nonterminals.Nodup) (x : Symbol) :
    (b.layout start).rulesOf x =
      (b.layout start).numberedRules.filter fun p => p.2.lhs == x := by
  have hheld : ∀ block : Block, ∀ p ∈ block.ruleIds.zip (b.rulesFor block.lhs),
      p.2.lhs = block.lhs :=
    fun block p hp => lhs_of_mem_rulesFor (List.of_mem_zip hp).2
  rw [numberedRules_layout, filter_flatMap_of_key hheld, Block.filter_lhs hnodup,
    Grammar.rulesOf, Grammar.block?]
  cases hblock : (b.layout start).blocks.find? fun block => block.lhs == x with
  | none => rfl
  | some block => simp [rulesIn_layout (List.mem_of_find?_eq_some hblock)]

theorem mem_mentioned_ofSteps :
    x ∈ (ofSteps steps).mentioned ↔ ∃ rule ∈ steps.flatMap BuilderStep.added, x ∈ rule.rhs := by
  rw [mentioned, rules_ofSteps, List.mem_flatMap]

theorem mem_declared_ofSteps :
    x ∈ (ofSteps steps).declared ↔ x ∈ steps.filterMap BuilderStep.declared? := by
  rw [← Array.mem_toList_iff, declared_ofSteps, List.mem_eraseDups]

end Builder

/-! ## Everything that was collected -/

namespace Grammar

/-- The grammar consists of the declared nonterminals and the added rules: which symbols are
    terminals and nonterminals, how the rules are grouped, and how a group is found. -/
structure Arranges (g : Grammar) (declared : List Symbol) (added : List Rule) : Prop where
  nonterminal_iff : ∀ x, g.isNonterminal x = true ↔ x ∈ declared
  terminal_iff : ∀ x, g.isTerminal x = true ↔
    x = endOfInput ∨ (∃ rule ∈ added, x ∈ rule.rhs) ∧ x ∉ declared
  disjoint : ∀ x, ¬ (g.isTerminal x = true ∧ g.isNonterminal x = true)
  classified : ∀ rule ∈ added, ∀ x ∈ rule.lhs :: rule.rhs,
    g.isTerminal x = true ∨ g.isNonterminal x = true
  nodup_nonterminals : g.nonterminals.Nodup
  mem_nonterminals : ∀ x, x ∈ g.nonterminals ↔ x ∈ declared
  rules_perm : g.rules.toList.Perm added
  rules_grouped : g.rules.toList =
    g.nonterminals.flatMap fun x => added.filter fun rule => rule.lhs == x
  rulesOf_eq : ∀ x, g.rulesOf x = g.numberedRules.filter fun p => p.2.lhs == x
  productions_fst : g.productions.map Prod.fst = g.nonterminals
  productions_snd : g.productions.flatMap Prod.snd = g.rules.toList

end Grammar

namespace Builder

variable {steps : List BuilderStep} {g : Grammar}

/-- A builder that makes a grammar loses nothing of what it has collected, and nothing that it has
    not collected gets in. -/
theorem arranges_of_build (h : (ofSteps steps).build = .ok g) :
    g.Arranges (steps.filterMap BuilderStep.declared?) (steps.flatMap BuilderStep.added) := by
  have hwf : g.WellFormed := wellFormed_of_build h
  obtain ⟨-, start, -, rfl⟩ := build_eq_ok h
  have hnodup := nodup_nonterminals_layout steps start
  have hperm := rules_layout_perm (fun _ => lhs_mem_declared) (nodup_declared steps) start
  have hgroups : ((ofSteps steps).layout start).productions =
      ((ofSteps steps).layout start).nonterminals.map fun x =>
        (x, (steps.flatMap BuilderStep.added).filter fun rule => rule.lhs == x) := by
    rw [productions_layout, ← rules_ofSteps]
    rfl
  have hrules : ((ofSteps steps).layout start).rules.toList =
      ((ofSteps steps).layout start).nonterminals.flatMap fun x =>
        (steps.flatMap BuilderStep.added).filter fun rule => rule.lhs == x := by
    rw [rules_layout, nonterminals_layout, ← rules_ofSteps]
    rfl
  rw [rules_ofSteps] at hperm
  exact {
    nonterminal_iff := fun x => (contains_nonterminalSet _ x).trans mem_declared_ofSteps
    terminal_iff := fun x => by
      rw [← mem_mentioned_ofSteps, ← mem_declared_ofSteps]
      exact contains_terminalSet _ x
    disjoint := fun x hx => by simp [hwf.not_terminal x hx.2] at hx
    classified := fun rule hrule x hx => by
      have hmem : rule ∈ ((ofSteps steps).layout start).rules :=
        Array.mem_toList_iff.1 (hperm.mem_iff.2 hrule)
      rcases List.mem_cons.1 hx with rfl | hx
      · exact .inr (hwf.nonterminal_lhs rule hmem)
      · exact classified_of_build h hmem hx
    nodup_nonterminals := hnodup
    mem_nonterminals := fun x => by
      rw [nonterminals_layout, mem_order, mem_declared_ofSteps]
    rules_perm := hperm
    rules_grouped := hrules
    rulesOf_eq := rulesOf_eq_filter hnodup
    productions_fst := by rw [hgroups, List.map_map]; exact List.map_id _
    productions_snd := by rw [hgroups, List.flatMap_map, hrules] }

/-! ## Rules that arrive in pieces -/

/-- The steps that collect rules of `S`, then of `A`, then of `S` again, with symbols that get rules
    later or never, and nonterminals without rules, one of them out of reach. -/
def scatteredSteps : List BuilderStep :=
  [.createSymbol (some "S"), .addRules ⟨1⟩ [[⟨2⟩, ⟨3⟩]], .createSymbol (some "A"),
    .createSymbol (some "x"), .addRules ⟨2⟩ [[⟨3⟩], []], .createSymbol none, .createSymbol none,
    .addRules ⟨5⟩ [], .addRules ⟨1⟩ [[⟨0⟩, ⟨4⟩]], .addRules ⟨4⟩ []]

theorem arranges_of_build_scattered : ∃ g, (ofSteps scatteredSteps).build = .ok g ∧
    g.Arranges [⟨1⟩, ⟨2⟩, ⟨5⟩, ⟨1⟩, ⟨4⟩]
      [⟨⟨1⟩, [⟨2⟩, ⟨3⟩]⟩, ⟨⟨2⟩, [⟨3⟩]⟩, ⟨⟨2⟩, []⟩, ⟨⟨1⟩, [⟨0⟩, ⟨4⟩]⟩] ∧
    g.terminals = [⟨0⟩, ⟨3⟩] ∧ g.nonterminals = [⟨1⟩, ⟨2⟩, ⟨4⟩, ⟨5⟩] ∧
    (g.rulesOf ⟨2⟩).map Prod.fst = [⟨2⟩, ⟨3⟩] ∧ g.rulesOf ⟨40⟩ = [] := by
  have hbuild : (ofSteps scatteredSteps).build = .ok ((ofSteps scatteredSteps).layout ⟨1⟩) :=
    build_of_fault? (by decide +kernel) rfl
  exact ⟨_, hbuild, arranges_of_build hbuild, by decide +kernel, by decide +kernel,
    by decide +kernel, by decide +kernel⟩

end Builder

end Predictive
