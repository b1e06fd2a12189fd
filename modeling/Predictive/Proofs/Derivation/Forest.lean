-- SUMMARY: Derivation trees, kept as forests, and their agreement with derivations.
import Predictive.Parse.Action
import Predictive.Proofs.Derivation.Basic
import Predictive.Proofs.Grammar.Built

/-!
# Derivation trees

Trees stand side by side in a forest, each with the trees below it and the trees to its right. A
string of symbols derives another one exactly if a forest has the first as its roots and the second
as its leaves. Read from the top and from the left, a forest is also the list of actions by which a
predictive parser goes through it.
-/

namespace Predictive

inductive Forest where
  | nil
  /-- A leaf and the trees to its right. -/
  | leaf (x : Symbol) (rest : Forest)
  /-- An inner node, its rule, the trees below it, and the trees to its right. -/
  | node (x : Symbol) (rule : RuleId) (below rest : Forest)
deriving DecidableEq, Repr

namespace Forest

/-- The symbols at the top, from left to right. -/
@[simp] def roots : Forest → List Symbol
  | .nil => []
  | .leaf x rest => x :: rest.roots
  | .node x _ _ rest => x :: rest.roots

/-- The symbols at the leaves, from left to right. -/
@[simp] def yield : Forest → List Symbol
  | .nil => []
  | .leaf x rest => x :: rest.yield
  | .node _ _ below rest => below.yield ++ rest.yield

/-- The rules at the inner nodes, each before those below it, and those before the ones to its
    right. -/
@[simp] def rules : Forest → List RuleId
  | .nil => []
  | .leaf _ rest => rest.rules
  | .node _ r below rest => r :: (below.rules ++ rest.rules)

/-- The actions that lead a parser through the forest: leaves are matched, inner nodes expanded. -/
@[simp] def actions : Forest → List Action
  | .nil => []
  | .leaf x rest => .matchTop x :: rest.actions
  | .node _ r below rest => .expand r :: (below.actions ++ rest.actions)

/-- Every inner node has the symbols below it by a rule of the grammar. -/
@[simp] def Valid (g : Grammar) : Forest → Prop
  | .nil => True
  | .leaf _ rest => rest.Valid g
  | .node x r below rest => g.rule? r = some ⟨x, below.roots⟩ ∧ below.Valid g ∧ rest.Valid g

instance Valid.decidable (g : Grammar) : (f : Forest) → Decidable (f.Valid g)
  | .nil => inferInstanceAs (Decidable True)
  | .leaf _ rest => Valid.decidable g rest
  | .node x r below rest =>
    have := Valid.decidable g below
    have := Valid.decidable g rest
    inferInstanceAs (Decidable (g.rule? r = some ⟨x, below.roots⟩ ∧ below.Valid g ∧ rest.Valid g))

/-- A single derivation tree: the forest derives `w` from `x`. -/
structure IsTree (g : Grammar) (x : Symbol) (w : List Symbol) (f : Forest) : Prop where
  valid : f.Valid g
  roots : f.roots = [x]
  yield : f.yield = w

instance (g : Grammar) (x : Symbol) (w : List Symbol) (f : Forest) : Decidable (f.IsTree g x w) :=
  decidable_of_iff (f.Valid g ∧ f.roots = [x] ∧ f.yield = w)
    ⟨fun ⟨valid, roots, yield⟩ => ⟨valid, roots, yield⟩, fun h => ⟨h.valid, h.roots, h.yield⟩⟩

theorem IsTree.terminal {g : Grammar} {x : Symbol} {w : List Symbol} {f : Forest}
    (hf : f.IsTree g x w) (hterm : ∀ y ∈ w, g.isTerminal y = true ∧ y ≠ Grammar.endOfInput) :
    ∀ y ∈ f.yield, g.isTerminal y = true :=
  fun y hy => (hterm y (hf.yield ▸ hy)).1

/-! ## Forests side by side -/

@[simp] def append : Forest → Forest → Forest
  | .nil, f => f
  | .leaf x rest, f => .leaf x (rest.append f)
  | .node x r below rest, f => .node x r below (rest.append f)

@[simp] theorem roots_append (f f' : Forest) : (f.append f').roots = f.roots ++ f'.roots := by
  induction f with
  | nil => rfl
  | leaf x rest ih => simp [ih]
  | node x r below rest _ ih => simp [ih]

@[simp] theorem yield_append (f f' : Forest) : (f.append f').yield = f.yield ++ f'.yield := by
  induction f with
  | nil => rfl
  | leaf x rest ih => simp [ih]
  | node x r below rest _ ih => simp [ih]

@[simp] theorem valid_append {g : Grammar} (f f' : Forest) :
    (f.append f').Valid g ↔ f.Valid g ∧ f'.Valid g := by
  induction f with
  | nil => simp
  | leaf x rest ih => simp [ih]
  | node x r below rest _ ih => simp [ih, and_assoc]

/-- A forest comes apart wherever its roots do. -/
theorem exists_append_of_roots {f : Forest} {xs ys : List Symbol} (h : f.roots = xs ++ ys) :
    ∃ left right : Forest, f = left.append right ∧ left.roots = xs ∧ right.roots = ys := by
  induction xs generalizing f with
  | nil => exact ⟨.nil, f, rfl, rfl, h⟩
  | cons x xs ih =>
    cases f with
    | nil => simp at h
    | leaf y rest =>
      simp only [roots, List.cons_append, List.cons.injEq] at h
      obtain ⟨left, right, rfl, hleft, hright⟩ := ih h.2
      exact ⟨.leaf y left, right, rfl, by simp [h.1, hleft], hright⟩
    | node y r below rest =>
      simp only [roots, List.cons_append, List.cons.injEq] at h
      obtain ⟨left, right, rfl, hleft, hright⟩ := ih h.2
      exact ⟨.node y r below left, right, rfl, by simp [h.1, hleft], hright⟩

/-- The symbols of a string as leaves. -/
@[simp] def leaves : List Symbol → Forest
  | [] => .nil
  | x :: xs => .leaf x (leaves xs)

@[simp] theorem roots_leaves (xs : List Symbol) : (leaves xs).roots = xs := by
  induction xs with
  | nil => rfl
  | cons x xs ih => simp [ih]

@[simp] theorem yield_leaves (xs : List Symbol) : (leaves xs).yield = xs := by
  induction xs with
  | nil => rfl
  | cons x xs ih => simp [ih]

theorem valid_leaves (g : Grammar) (xs : List Symbol) : (leaves xs).Valid g := by
  induction xs with
  | nil => trivial
  | cons x xs ih => exact ih

/-! ## Trees and derivations -/

variable {g : Grammar}

theorem Valid.derives {f : Forest} (h : f.Valid g) : g.Derives f.roots f.yield := by
  induction f with
  | nil => exact .refl []
  | leaf x rest ih => exact (ih h).append_left [x]
  | node x r below rest ihbelow ihrest =>
    obtain ⟨hrule, hbelow, hrest⟩ := h
    have hstep : g.Derives [x] below.roots := .of_rule (g.mem_rules_of_rule? hrule)
    exact (hstep.trans (ihbelow hbelow)).append (ihrest hrest)

/-- A rewriting step at the beginning of a derivation puts a node on top of a forest. -/
theorem exists_of_rewrites {u v : List Symbol} {f : Forest} (hstep : g.Rewrites u v)
    (hf : f.Valid g) (hroots : f.roots = v) :
    ∃ f' : Forest, f'.Valid g ∧ f'.roots = u ∧ f'.yield = f.yield := by
  obtain @⟨rule, mem, before, after⟩ := hstep
  obtain ⟨r, hr⟩ := g.exists_rule?_of_mem mem
  obtain ⟨left, right, rfl, hleft, rfl⟩ := exists_append_of_roots hroots
  obtain ⟨left, below, rfl, rfl, hbelow⟩ := exists_append_of_roots hleft
  simp only [valid_append] at hf
  refine ⟨left.append (.node rule.lhs r below right), ?_, ?_, ?_⟩
  · simpa [hbelow, hr] using ⟨hf.1.1, hf.1.2, hf.2⟩
  · simp
  · simp

theorem exists_of_derives {u w : List Symbol} (h : g.Derives u w) :
    ∃ f : Forest, f.Valid g ∧ f.roots = u ∧ f.yield = w := by
  induction h using Relation.ReflTransGen.head_induction_on with
  | refl => exact ⟨leaves w, valid_leaves g w, by simp, by simp⟩
  | head hstep _ ih =>
    obtain ⟨f, hf, hroots, hyield⟩ := ih
    obtain ⟨f', hf', hroots', hyield'⟩ := exists_of_rewrites hstep hf hroots
    exact ⟨f', hf', hroots', hyield'.trans hyield⟩

/-- A symbol derives what its derivation trees yield. -/
theorem derives_iff_exists_isTree {x : Symbol} {w : List Symbol} :
    g.Derives [x] w ↔ ∃ f : Forest, f.IsTree g x w := by
  refine ⟨?_, ?_⟩
  · intro h
    obtain ⟨f, hf, hroots, hyield⟩ := exists_of_derives h
    exact ⟨f, hf, hroots, hyield⟩
  · rintro ⟨f, hf, hroots, rfl⟩
    rw [← hroots]
    exact hf.derives

/-- A symbol without rules derives itself only. -/
theorem not_nullable_of_terminal (hwf : g.WellFormed) {x : Symbol} (hx : g.isTerminal x = true) :
    ¬ g.Nullable x := by
  intro hnull
  obtain ⟨f, hf, hroots, hyield⟩ := derives_iff_exists_isTree.1 hnull
  cases f with
  | nil => simp at hroots
  | leaf y rest => simp at hyield
  | node y r below rest =>
    have hy : g.isNonterminal y = true := hwf.nonterminal_of_rule? hf.1
    obtain rfl : y = x := by simpa using congrArg List.head? hroots
    simp [hwf.not_terminal y hy] at hx

/-- The rules of a forest, each before those below it and to its right, are applied in this order by
    the leftmost derivation. -/
theorem Valid.derivesLeftmostBy {f : Forest} (hf : f.Valid g)
    (hterm : ∀ x ∈ f.yield, g.isTerminal x = true) (before : List Symbol)
    (hbefore : ∀ x ∈ before, g.isTerminal x = true) (after : List Symbol) :
    g.DerivesLeftmostBy (before ++ f.roots ++ after) f.rules (before ++ f.yield ++ after) := by
  induction f generalizing before after with
  | nil => exact .refl _
  | leaf x rest ih =>
    have hrest : rest.Valid g := hf
    obtain ⟨hx, htrest⟩ := List.forall_mem_cons.1 hterm
    have hbefore' : ∀ y ∈ before ++ [x], g.isTerminal y = true :=
      List.forall_mem_append.2 ⟨hbefore, by simpa using hx⟩
    simpa using ih hrest htrest _ hbefore' after
  | node x r below rest ihbelow ihrest =>
    obtain ⟨hrule, hbelow, hrest⟩ := hf
    obtain ⟨htbelow, htrest⟩ := List.forall_mem_append.1 hterm
    have hbefore' : ∀ y ∈ before ++ below.yield, g.isTerminal y = true :=
      List.forall_mem_append.2 ⟨hbefore, htbelow⟩
    have hdbelow := ihbelow hbelow htbelow before hbefore (rest.roots ++ after)
    have hdrest := ihrest hrest htrest _ hbefore' after
    have hstep := Grammar.DerivesLeftmostBy.head hrule hbefore (rest.roots ++ after) hdbelow
    simpa [List.append_assoc] using hstep.trans (by simpa [List.append_assoc] using hdrest)

/-! ## Trees and actions -/

theorem actions_append (f f' : Forest) : (f.append f').actions = f.actions ++ f'.actions := by
  induction f with
  | nil => rfl
  | leaf x rest ih => simp [ih]
  | node x r below rest _ ih => simp [ih]

theorem length_actions (f : Forest) : f.actions.length = f.yield.length + f.rules.length := by
  induction f with
  | nil => rfl
  | leaf x rest ih => simp [ih]; omega
  | node x r below rest ihbelow ihrest => simp [ihbelow, ihrest]; omega

/-- The actions of a forest name its nodes one by one, so that no two forests with the same roots
    have the same actions, whatever comes after them. -/
theorem eq_of_actions_append {f f' : Forest} {as as' : List Action} (hf : f.Valid g)
    (hf' : f'.Valid g) (hroots : f.roots = f'.roots) (h : f.actions ++ as = f'.actions ++ as') :
    f = f' ∧ as = as' := by
  induction f generalizing f' as as' with
  | nil =>
    cases f' with
    | nil => exact ⟨rfl, h⟩
    | leaf => simp at hroots
    | node => simp at hroots
  | leaf x rest ih =>
    cases f' with
    | nil => simp at hroots
    | leaf x' rest' =>
      simp only [roots, List.cons.injEq] at hroots
      simp only [actions, List.cons_append, List.cons.injEq] at h
      have hrest : rest.Valid g := hf
      have hrest' : rest'.Valid g := hf'
      obtain ⟨rfl, rfl⟩ := ih hrest hrest' hroots.2 h.2
      exact ⟨by rw [hroots.1], rfl⟩
    | node => simp at h
  | node x r below rest ihbelow ihrest =>
    cases f' with
    | nil => simp at hroots
    | leaf => simp at h
    | node x' r' below' rest' =>
      simp only [roots, List.cons.injEq] at hroots
      simp only [actions, List.cons_append, List.cons.injEq, Action.expand.injEq,
        List.append_assoc] at h
      obtain ⟨hrule, hbelow, hrest⟩ := hf
      obtain ⟨hrule', hbelow', hrest'⟩ := hf'
      -- The same rule has the same right-hand side, which the trees below have as their roots.
      have hroots' : below.roots = below'.roots := by
        rw [h.1, hrule'] at hrule
        simp_all
      obtain ⟨rfl, has⟩ := ihbelow hbelow hbelow' hroots' h.2
      obtain ⟨rfl, rfl⟩ := ihrest hrest hrest' hroots.2 has
      exact ⟨by rw [hroots.1, h.1], rfl⟩

end Forest

end Predictive
