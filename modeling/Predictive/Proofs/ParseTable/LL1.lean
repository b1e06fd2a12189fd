-- SUMMARY: Grammars that are LL(1), and why their tables can have conflicts all the same.
import Predictive.Proofs.Derivation.First
import Predictive.Proofs.Lookahead.Follow
import Predictive.Proofs.ParseTable.Conflicts

/-!
# LL(1) grammars

A grammar is LL(1) if no terminal selects two rules of a nonterminal. Here this is said by
derivations, with a FOLLOW that looks through everything that erases. The FOLLOW sets of a table
look at the next symbol only. If this one erases they take over what follows the left-hand side,
whatever else comes in between, so they can hold terminals that never follow. All conflicts in the
table of an LL(1) grammar are due to such terminals.
-/

namespace Predictive

namespace Grammar

variable {g : Grammar} {a x : Symbol} {r r' : RuleId}

/-- The terminal `x` can stand right after the nonterminal: it begins what comes after the
    nonterminal in a rule, or follows the left-hand side while all of that erases. -/
inductive CanFollow (g : Grammar) : Symbol → Symbol → Prop where
  | start (nonterminal : g.isNonterminal g.start = true) : CanFollow g g.start endOfInput
  | inner {rule : Rule} (mem : rule ∈ g.rules) {before after w : List Symbol} {b x : Symbol}
    (occurs : rule.rhs = before ++ b :: after) (nonterminal : g.isNonterminal b = true)
    (terminal : g.isTerminal x = true) (begins : g.Derives after (x :: w)) : CanFollow g b x
  | outer {rule : Rule} (mem : rule ∈ g.rules) {before after : List Symbol} {b x : Symbol}
    (occurs : rule.rhs = before ++ b :: after) (nonterminal : g.isNonterminal b = true)
    (erases : g.Derives after []) (follows : CanFollow g rule.lhs x) : CanFollow g b x

/-- The terminal `x` selects rule number `r` of `a`: the right-hand side can begin with it, or can
    erase before it, with the given idea of what follows a nonterminal. -/
def Selects (g : Grammar) (Follows : Symbol → Symbol → Prop) (r : RuleId) (a x : Symbol) : Prop :=
  ∃ rule, g.rule? r = some rule ∧ rule.lhs = a ∧
    ((g.isTerminal x = true ∧ ∃ w, g.Derives rule.rhs (x :: w)) ∨
      g.Derives rule.rhs [] ∧ Follows a x)

/-- No terminal selects two rules of a nonterminal. -/
def IsLL1 (g : Grammar) : Prop :=
  ∀ a x r r', g.Selects g.CanFollow r a x → g.Selects g.CanFollow r' a x → r = r'

theorem Selects.imp {P Q : Symbol → Symbol → Prop} (hPQ : P a x → Q a x)
    (h : g.Selects P r a x) : g.Selects Q r a x := by
  obtain ⟨rule, hrule, hlhs, hx⟩ := h
  exact ⟨rule, hrule, hlhs, hx.imp_right fun ⟨herases, hfollows⟩ => ⟨herases, hPQ hfollows⟩⟩

end Grammar

variable {g : Grammar} {follow : FollowSets} {a x : Symbol} {r : RuleId}

theorem ParseTable.claims_iff_selects (hwf : g.WellFormed) :
    Claims g (.ofGrammar g) follow r a x ↔ g.Selects follow.sets.Has r a x := by
  simp only [Claims, Grammar.Selects, FirstSets.mem_ofString_iff hwf,
    FirstSets.hasEmpty_ofString_iff_derives hwf]

/-! ## Sets that satisfy the equations -/

/-- Sets that satisfy the equations of FOLLOW have all that can follow. -/
theorem FollowSets.Closed.has_of_canFollow (h : follow.Closed g (.ofGrammar g))
    (hwf : g.WellFormed) (hx : g.CanFollow a x) : follow.sets.Has a x := by
  induction hx with
  | start nonterminal => exact h.start nonterminal
  | inner mem occurs nonterminal terminal begins =>
    have hfirst := (FirstSets.mem_ofString_iff hwf).2 ⟨terminal, _, begins⟩
    exact h.inner _ mem _ _ _ occurs nonterminal _ hfirst
  | outer mem occurs nonterminal erases _ ih =>
    have hempty := (FirstSets.hasEmpty_ofString_iff_derives hwf).2 erases
    exact h.outer _ mem _ _ _ occurs nonterminal hempty _ ih

/-- A grammar is LL(1) if its table with such sets has no conflict. -/
theorem Grammar.isLL1_of_closed (hwf : g.WellFormed) (hclosed : follow.Closed g (.ofGrammar g))
    (hfree : (ParseTable.withSets g (.ofGrammar g) follow).overwritten = 0) : g.IsLL1 := by
  intro a x r r' hr hr'
  have hclaims : ∀ r, g.Selects g.CanFollow r a x →
      ParseTable.Claims g (.ofGrammar g) follow r a x := fun r hr =>
    (ParseTable.claims_iff_selects hwf).2 (hr.imp (hclosed.has_of_canFollow hwf))
  exact ParseTable.overwritten_eq_zero_iff.1 hfree a x r r' (hclaims r hr) (hclaims r' hr')

/-! ## Sets that look at the next symbol -/

namespace Grammar

/-- Behind a nonterminal and a symbol that erases, the rest of the rule erases as well. -/
def ErasesOnward (g : Grammar) : Prop :=
  ∀ rule ∈ g.rules, ∀ before b c after, rule.rhs = before ++ b :: c :: after →
    g.isNonterminal b = true → g.Nullable c → g.Derives after []

/-- It makes no difference to look at the next symbol only if the symbols behind one that erases do
    so as well. -/
theorem ErasesOnward.obeys (h : g.ErasesOnward) (hbuilt : g.Built) :
    FollowSets.Obeys g (.ofGrammar g) g.CanFollow := by
  have hwf := hbuilt.wellFormed
  have hfirst := FirstSets.derived_ofGrammar hwf
  refine ⟨.start, ?_, ?_⟩
  · rintro rule hrule before b after hrhs hb x ⟨s, hs, hx⟩
    cases after with
    | nil => simp at hs
    | cons c after =>
      obtain ⟨w, hw⟩ := hfirst.derives c x ⟨s, hs, hx⟩
      exact .inner hrule hrhs hb (hfirst.sound.terminal c x ⟨s, hs, hx⟩) (hw.append_right after)
  · intro rule hrule before b after hrhs hb herases x hx
    refine .outer hrule hrhs hb ?_ hx
    cases after with
    | nil => exact .refl []
    | cons c after =>
      have hclass := hbuilt.classified hrule (x := c) (by simp [hrhs])
      obtain ⟨s, hs⟩ := Option.isSome_iff_exists.1 ((hfirst.isSome c).2 hclass)
      have hnull : g.Nullable c := hfirst.sound.nullable c ⟨s, hs, herases s hs⟩
      exact hnull.append (h rule hrule before b c after hrhs hb hnull)

end Grammar

namespace ParseTable

/-- The FOLLOW set of the nonterminal has the terminal, which cannot follow it. -/
def InExcess (g : Grammar) (a x : Symbol) : Prop :=
  (FollowSets.ofGrammar g (.ofGrammar g)).sets.Has a x ∧ ¬ g.CanFollow a x

/-- The terminal selects rule number `r` of `a` by the FOLLOW sets of the table. -/
abbrev SelectsByTable (g : Grammar) : RuleId → Symbol → Symbol → Prop :=
  g.Selects (FollowSets.ofGrammar g (.ofGrammar g)).sets.Has

theorem overwritten_eq_zero_iff_inExcess (hwf : g.WellFormed) (hll : g.IsLL1) :
    (ofGrammar g).overwritten = 0 ↔ ∀ a x, InExcess g a x →
      ∀ r r', SelectsByTable g r a x → SelectsByTable g r' a x → r = r' := by
  simp only [ofGrammar, overwritten_eq_zero_iff, claims_iff_selects hwf]
  refine ⟨fun h a x _ => h a x, fun h a x r r' hr hr' => ?_⟩
  by_cases hexcess : InExcess g a x
  · exact h a x hexcess r r' hr hr'
  · have hfollows := fun hx => not_not.1 fun hnot => hexcess ⟨hx, hnot⟩
    exact hll a x r r' (hr.imp hfollows) (hr'.imp hfollows)

/-- The table of an LL(1) grammar has conflicts exactly if some terminal in excess selects two
    rules. It has none if all rules erase onward, since no terminal is in excess then. -/
theorem conflicts_of_isLL1 (hbuilt : g.Built) (hll : g.IsLL1) :
    ((ofGrammar g).overwritten = 0 ↔ ∀ a x, InExcess g a x →
      ∀ r r', SelectsByTable g r a x → SelectsByTable g r' a x → r = r') ∧
    (g.ErasesOnward → (ofGrammar g).overwritten = 0) := by
  have hwf := hbuilt.wellFormed
  have hiff := overwritten_eq_zero_iff_inExcess hwf hll
  refine ⟨hiff, fun honward => hiff.2 fun a x hexcess => ?_⟩
  exact absurd ((honward.obeys hbuilt).of_has hwf hexcess.1) hexcess.2

/-! ## Two LL(1) grammars -/

/-- The steps that collect `S → A y`, `A → B C d`, `B → z | ε` and `C → c | ε` for a symbol `z`. The
    `d` that comes after `B C` keeps `y` from following `B`, but the empty `C` lets the FOLLOW set
    of `B` have it. -/
def skippingSteps (z : Symbol) : List BuilderStep :=
  [.createSymbol (some "S"), .createSymbol (some "A"), .createSymbol (some "y"),
    .createSymbol (some "B"), .createSymbol (some "C"), .createSymbol (some "d"),
    .createSymbol (some "c"), .createSymbol (some "b"), .addRules ⟨1⟩ [[⟨2⟩, ⟨3⟩]],
    .addRules ⟨2⟩ [[⟨4⟩, ⟨5⟩, ⟨6⟩]], .addRules ⟨4⟩ [[z], []], .addRules ⟨5⟩ [[⟨7⟩], []]]

def skipping (z : Symbol) : Grammar := (Builder.ofSteps (skippingSteps z)).layout ⟨1⟩

/-- What can follow the nonterminals of `skipping z`. -/
def skippingFollow : FollowSets where
  sets := (((∅ : LookaheadMap).insert ⟨1⟩ (.singleton ⟨0⟩)).insert ⟨2⟩ (.singleton ⟨3⟩)).insert ⟨4⟩
    ⟨false, [⟨6⟩, ⟨7⟩]⟩ |>.insert ⟨5⟩ (.singleton ⟨6⟩)

/-- With `y` for `z` the grammar is LL(1), but `y` takes the cell of `B → y` for `B → ε`. -/
theorem conflict_of_skipping : (skipping ⟨3⟩).Built ∧ (skipping ⟨3⟩).IsLL1 ∧
    (ofGrammar (skipping ⟨3⟩)).overwritten = 1 := by
  have hbuilt : (skipping ⟨3⟩).Built :=
    ⟨skippingSteps ⟨3⟩, Builder.build_of_fault? (by decide +kernel) rfl⟩
  have hclosed : skippingFollow.Closed (skipping ⟨3⟩) (.ofGrammar (skipping ⟨3⟩)) := by
    decide +kernel
  have hll : (skipping ⟨3⟩).IsLL1 :=
    Grammar.isLL1_of_closed hbuilt.wellFormed hclosed (by decide +kernel)
  exact ⟨hbuilt, hll, by decide +kernel⟩

/-- With `b` for `z` it is LL(1) as well, and `y` is still in excess, but selects one rule only. -/
theorem conflicts_of_isLL1_skipping : (skipping ⟨8⟩).Built ∧ (skipping ⟨8⟩).IsLL1 ∧
    InExcess (skipping ⟨8⟩) ⟨4⟩ ⟨3⟩ ∧
    ∀ r r', SelectsByTable (skipping ⟨8⟩) r ⟨4⟩ ⟨3⟩ → SelectsByTable (skipping ⟨8⟩) r' ⟨4⟩ ⟨3⟩ →
      r = r' := by
  have hbuilt : (skipping ⟨8⟩).Built :=
    ⟨skippingSteps ⟨8⟩, Builder.build_of_fault? (by decide +kernel) rfl⟩
  have hclosed : skippingFollow.Closed (skipping ⟨8⟩) (.ofGrammar (skipping ⟨8⟩)) := by
    decide +kernel
  have hll : (skipping ⟨8⟩).IsLL1 :=
    Grammar.isLL1_of_closed hbuilt.wellFormed hclosed (by decide +kernel)
  have hnot : ¬ skippingFollow.sets.Has ⟨4⟩ ⟨3⟩ := by decide +kernel
  have hexcess : InExcess (skipping ⟨8⟩) ⟨4⟩ ⟨3⟩ :=
    ⟨by decide +kernel, fun hx => hnot (hclosed.has_of_canFollow hbuilt.wellFormed hx)⟩
  have hfree : (ofGrammar (skipping ⟨8⟩)).overwritten = 0 := by decide +kernel
  exact ⟨hbuilt, hll, hexcess, (conflicts_of_isLL1 hbuilt hll).1.1 hfree ⟨4⟩ ⟨3⟩ hexcess⟩

end ParseTable

end Predictive
