-- SUMMARY: FIRST sets hold exactly the terminals that derived strings begin with.
import Predictive.Proofs.Derivation.Selection

/-!
# Exactness of FIRST sets

Every pass of `FirstSets.solve` puts into the sets only what some string begins with that the symbol
derives. In the other direction a derivation has a tree, and what the tree yields first is in the
FIRST set of its roots. The symbols of the string need not belong to the grammar. Nothing is asked
of the rules: they may be recursive in any way, derive no terminal string, or be missing.
-/

namespace Predictive.FirstSets

/-- What is in the sets can be derived, and every symbol of the grammar has a set. -/
structure Derived (g : Grammar) (f : FirstSets) : Prop where
  sound : f.Sound g
  isSome : ∀ a : Symbol, f.sets[a]?.isSome = true ↔
    g.isTerminal a = true ∨ g.isNonterminal a = true
  derives : ∀ a x, f.sets.Has a x → ∃ w, g.Derives [a] (x :: w)

variable {g : Grammar} {f : FirstSets} {x : Symbol} {xs : List Symbol}

/-- A string derives one that begins with any terminal of its set. -/
theorem Derived.derives_of_mem_ofString (h : f.Derived g)
    (hx : x ∈ (f.ofString xs).terminals) : ∃ w, g.Derives xs (x :: w) := by
  induction xs with
  | nil => exact absurd hx mem_ofString_nil
  | cons y ys ih =>
    rcases mem_ofString_cons.1 hx with hbegins | ⟨herases, hx⟩
    · have hy : ∃ w, g.Derives [y] (x :: w) := by
        unfold Begins at hbegins
        split at hbegins
        · exact hbegins ▸ ⟨[], .refl _⟩
        · exact h.derives y x hbegins
      obtain ⟨w, hw⟩ := hy
      exact ⟨w ++ ys, hw.append_right ys⟩
    · obtain ⟨w, hw⟩ := ih hx
      exact ⟨w, (h.sound.nullable_of_erases herases).append hw⟩

theorem Derived.init (hwf : g.WellFormed) : Derived g (init g) := by
  refine ⟨.init hwf, fun a => ?_, fun a x => ?_⟩
  · rw [getElem?_init, ← g.mem_terminals, ← hwf.mem_nonterminals]
    by_cases hterm : a ∈ g.terminals <;> by_cases hnonterm : a ∈ g.nonterminals <;>
      simp [hterm, hnonterm]
  · rintro ⟨s, hs, hx⟩
    rw [getElem?_init] at hs
    split at hs
    · obtain rfl := Option.some.inj hs
      obtain rfl : x = a := by simpa [LookaheadSet.singleton] using hx
      exact ⟨[], .refl _⟩
    · split at hs
      · obtain rfl := Option.some.inj hs
        simp [LookaheadSet.empty] at hx
      · cases hs

theorem Derived.pass (h : Derived g f) : Derived g (pass g f).value := by
  refine ⟨h.sound.pass, fun a => ?_, fun a x hx => ?_⟩
  · rw [← h.isSome]
    exact Bool.eq_iff_iff.1 LookaheadMap.isSome_contributeAll
  · rcases has_pass.1 hx with hx | ⟨-, rule, hrule, rfl, hfirst⟩
    · exact h.derives a x hx
    · obtain ⟨w, hw⟩ := h.derives_of_mem_ofString hfirst
      exact ⟨w, (Grammar.Derives.of_rule hrule).trans hw⟩

variable (hwf : g.WellFormed)
include hwf

theorem derived_ofGrammar : Derived g (ofGrammar g) :=
  saturate_keeps (fun _ h => h.pass) (.init hwf)

/-- The FIRST set of a string has the terminals that a derived string can begin with. -/
theorem mem_ofString_iff : x ∈ ((ofGrammar g).ofString xs).terminals ↔
    g.isTerminal x = true ∧ ∃ w, g.Derives xs (x :: w) := by
  refine ⟨fun hx => ⟨?_, (derived_ofGrammar hwf).derives_of_mem_ofString hx⟩, ?_⟩
  · exact (sound_ofGrammar hwf).terminal_of_mem_ofString hx
  · rintro ⟨hx, w, hw⟩
    obtain ⟨f, hf, rfl, hyield⟩ := Forest.exists_of_derives hw
    exact Forest.mem_first_of_yield hwf hf hx hyield

/-- The FIRST set of a string has the empty string if the string derives it. -/
theorem hasEmpty_ofString_iff_derives :
    ((ofGrammar g).ofString xs).hasEmpty = true ↔ g.Derives xs [] := by
  refine ⟨(sound_ofGrammar hwf).derives_nil_of_hasEmpty, fun h => ?_⟩
  obtain ⟨f, hf, rfl, hyield⟩ := Forest.exists_of_derives h
  exact Forest.hasEmpty_of_yield hwf hf hyield

omit hwf in
/-- The FIRST sets of a grammar tell for every string which terminals can come first in what it
    derives, and whether it can vanish. The symbols with a set are those of the grammar, and the set
    of a symbol is the one of the string of this symbol alone. -/
theorem ofGrammar_exact (hbuilt : g.Built) :
    (∀ xs x, x ∈ ((ofGrammar g).ofString xs).terminals ↔
      g.isTerminal x = true ∧ ∃ w, g.Derives xs (x :: w)) ∧
    (∀ xs, ((ofGrammar g).ofString xs).hasEmpty = true ↔ g.Derives xs []) ∧
    (∀ x, ((ofGrammar g).get? x).isSome = true ↔
      g.isTerminal x = true ∨ g.isNonterminal x = true) ∧
    (∀ x s, (ofGrammar g).get? x = some s → s = (ofGrammar g).ofString [x]) ∧
    (∀ x, g.isTerminal x = true → (ofGrammar g).get? x = some (.singleton x)) ∧
    (ofGrammar g).get? Grammar.endOfInput = some (.singleton Grammar.endOfInput) := by
  have hwf := hbuilt.wellFormed
  have hkeys := (derived_ofGrammar hwf).isSome
  refine ⟨fun xs x => mem_ofString_iff hwf, fun xs => hasEmpty_ofString_iff_derives hwf, hkeys,
    fun x s hs => (ofString_of_get? hwf hs).symm, fun x hx => get?_of_terminal hwf hx, ?_⟩
  exact get?_of_terminal hwf hwf.terminal_endOfInput

end Predictive.FirstSets

/-! ## A grammar with loops -/

namespace Predictive

/-- The steps that collect `S → A B x | S y`, `A → B | ε`, `B → A | U y`, `U → U x | N`, and `N`
    without a rule. `S` and `U` are left-recursive, `A` and `B` lead to each other, and nothing but
    nonterminals ever comes out of `U` and `N`. -/
def Grammar.knottedSteps : List BuilderStep :=
  [.createSymbol (some "S"), .createSymbol (some "A"), .createSymbol (some "B"),
    .createSymbol (some "U"), .createSymbol (some "N"), .createSymbol (some "x"),
    .createSymbol (some "y"), .addRules ⟨1⟩ [[⟨2⟩, ⟨3⟩, ⟨6⟩], [⟨1⟩, ⟨7⟩]],
    .addRules ⟨2⟩ [[⟨3⟩], []], .addRules ⟨3⟩ [[⟨2⟩], [⟨4⟩, ⟨7⟩]],
    .addRules ⟨4⟩ [[⟨4⟩, ⟨6⟩], [⟨5⟩]], .addRules ⟨5⟩ []]

def Grammar.knotted : Grammar := (Builder.ofSteps knottedSteps).layout ⟨1⟩

theorem FirstSets.ofGrammar_exact_knotted : Grammar.knotted.Built ∧
    Grammar.knotted.Derives [⟨3⟩, ⟨2⟩] [] ∧
    (∃ w, Grammar.knotted.Derives [⟨2⟩, ⟨1⟩] (⟨6⟩ :: w)) ∧
    (∀ x w, Grammar.knotted.isTerminal x = true → ¬ Grammar.knotted.Derives [⟨4⟩, ⟨1⟩] (x :: w)) ∧
    (FirstSets.ofGrammar Grammar.knotted).get? ⟨5⟩ = some .empty := by
  have hbuilt : Grammar.knotted.Built :=
    ⟨Grammar.knottedSteps, Builder.build_of_fault? (by decide +kernel) rfl⟩
  obtain ⟨hfirst, hempty, -, -, -, -⟩ := ofGrammar_exact hbuilt
  refine ⟨hbuilt, (hempty _).1 (by decide +kernel), ((hfirst _ _).1 (by decide +kernel)).2, ?_,
    by decide +kernel⟩
  intro x w hx hderives
  have hmem := (hfirst [⟨4⟩, ⟨1⟩] x).2 ⟨hx, w, hderives⟩
  have hnone : ((ofGrammar Grammar.knotted).ofString [⟨4⟩, ⟨1⟩]).terminals = [] := by
    decide +kernel
  simp [hnone] at hmem

end Predictive
