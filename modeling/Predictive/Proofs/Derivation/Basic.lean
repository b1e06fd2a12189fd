-- SUMMARY: Derivations: rewriting strings of symbols by the rules of a grammar, anywhere or leftmost.
import Mathlib.Logic.Relation
import Predictive.Grammar.Basic

/-!
# Derivations

A derivation replaces left-hand sides by right-hand sides. It is leftmost if nothing but terminals
stands before each of the replaced symbols. These relations look at the rules of a grammar only, so
they say what a grammar means without any of the sets and tables made from it.
-/

namespace Predictive.Grammar

/-- One symbol of a string is replaced by a rule. -/
inductive Rewrites (g : Grammar) : List Symbol → List Symbol → Prop where
  | rule {rule : Rule} (mem : rule ∈ g.rules) (before after : List Symbol) :
    Rewrites g (before ++ rule.lhs :: after) (before ++ rule.rhs ++ after)

/-- The replaced symbol has nothing but terminals before it. -/
inductive RewritesLeftmost (g : Grammar) : List Symbol → List Symbol → Prop where
  | rule {rule : Rule} (mem : rule ∈ g.rules) {before : List Symbol}
    (terminal : ∀ x ∈ before, g.isTerminal x = true) (after : List Symbol) :
    RewritesLeftmost g (before ++ rule.lhs :: after) (before ++ rule.rhs ++ after)

def Derives (g : Grammar) : List Symbol → List Symbol → Prop :=
  Relation.ReflTransGen g.Rewrites

def DerivesLeftmost (g : Grammar) : List Symbol → List Symbol → Prop :=
  Relation.ReflTransGen g.RewritesLeftmost

/-- A leftmost derivation with the numbers of its rules, in the order in which they are applied. -/
inductive DerivesLeftmostBy (g : Grammar) : List Symbol → List RuleId → List Symbol → Prop where
  | refl (u : List Symbol) : DerivesLeftmostBy g u [] u
  | head {r : RuleId} {rule : Rule} (known : g.rule? r = some rule) {before : List Symbol}
    (terminal : ∀ x ∈ before, g.isTerminal x = true) (after : List Symbol) {rs : List RuleId}
    {v : List Symbol} (rest : DerivesLeftmostBy g (before ++ rule.rhs ++ after) rs v) :
    DerivesLeftmostBy g (before ++ rule.lhs :: after) (r :: rs) v

/-- The symbol derives the empty string. -/
def Nullable (g : Grammar) (x : Symbol) : Prop :=
  g.Derives [x] []

variable {g : Grammar} {u u' v v' w : List Symbol}

theorem Rewrites.append_left (h : g.Rewrites u v) (before : List Symbol) :
    g.Rewrites (before ++ u) (before ++ v) := by
  obtain ⟨mem, pre, post⟩ := h
  simpa only [List.append_assoc] using Rewrites.rule mem (before ++ pre) post

theorem Rewrites.append_right (h : g.Rewrites u v) (after : List Symbol) :
    g.Rewrites (u ++ after) (v ++ after) := by
  obtain ⟨mem, pre, post⟩ := h
  simpa only [List.append_assoc, List.cons_append] using Rewrites.rule mem pre (post ++ after)

theorem Derives.refl (u : List Symbol) : g.Derives u u :=
  Relation.ReflTransGen.refl

theorem Derives.trans (huv : g.Derives u v) (hvw : g.Derives v w) : g.Derives u w :=
  Relation.ReflTransGen.trans huv hvw

theorem Derives.append_left (h : g.Derives u v) (before : List Symbol) :
    g.Derives (before ++ u) (before ++ v) := by
  induction h with
  | refl => exact .refl _
  | tail _ hstep ih => exact ih.tail (hstep.append_left before)

theorem Derives.append_right (h : g.Derives u v) (after : List Symbol) :
    g.Derives (u ++ after) (v ++ after) := by
  induction h with
  | refl => exact .refl _
  | tail _ hstep ih => exact ih.tail (hstep.append_right after)

/-- Strings side by side derive what they derive one by one. -/
theorem Derives.append (hu : g.Derives u u') (hv : g.Derives v v') :
    g.Derives (u ++ v) (u' ++ v') :=
  (hu.append_right v).trans (hv.append_left u')

theorem Derives.of_rule {rule : Rule} (mem : rule ∈ g.rules) : g.Derives [rule.lhs] rule.rhs := by
  have hstep : g.Rewrites [rule.lhs] rule.rhs := by simpa using Rewrites.rule mem [] []
  exact Relation.ReflTransGen.single hstep

/-- A string of nullable symbols derives the empty string. -/
theorem Derives.nil_of_forall (h : ∀ x ∈ u, g.Nullable x) : g.Derives u [] := by
  induction u with
  | nil => exact .refl []
  | cons x u ih =>
    have hx : g.Derives [x] [] := h x (by simp)
    have hu : g.Derives u [] := ih fun y hy => h y (by simp [hy])
    simpa using hx.append hu

/-- What is true of all symbols of the right-hand sides stays true of all symbols of a string. -/
theorem Derives.forall_mem {P : Symbol → Prop} (hrules : ∀ rule ∈ g.rules, ∀ x ∈ rule.rhs, P x)
    (h : g.Derives u v) (hu : ∀ x ∈ u, P x) : ∀ x ∈ v, P x := by
  induction h with
  | refl => exact hu
  | tail _ hstep ih =>
    obtain ⟨mem, before, after⟩ := hstep
    simp only [List.forall_mem_append, List.forall_mem_cons] at ih ⊢
    exact ⟨⟨ih.1, hrules _ mem⟩, ih.2.2⟩

/-- A symbol that every right-hand side has comes with the last step, if there is one. -/
theorem Derives.eq_or_mem {x : Symbol} (hrules : ∀ rule ∈ g.rules, x ∈ rule.rhs)
    (h : g.Derives u v) : v = u ∨ x ∈ v := by
  cases h with
  | refl => exact .inl rfl
  | tail _ hstep =>
    obtain ⟨mem, before, after⟩ := hstep
    exact .inr (by simp [hrules _ mem])

theorem RewritesLeftmost.rewrites (h : g.RewritesLeftmost u v) : g.Rewrites u v := by
  obtain ⟨mem, -, after⟩ := h
  exact .rule mem _ after

theorem DerivesLeftmost.refl (u : List Symbol) : g.DerivesLeftmost u u :=
  Relation.ReflTransGen.refl

theorem DerivesLeftmost.tail (h : g.DerivesLeftmost u v) (hstep : g.RewritesLeftmost v w) :
    g.DerivesLeftmost u w :=
  Relation.ReflTransGen.tail h hstep

theorem DerivesLeftmost.derives (h : g.DerivesLeftmost u v) : g.Derives u v :=
  Relation.ReflTransGen.mono (fun _ _ => RewritesLeftmost.rewrites) u v h

theorem DerivesLeftmostBy.trans {rs rs' : List RuleId} (h : g.DerivesLeftmostBy u rs v)
    (h' : g.DerivesLeftmostBy v rs' w) : g.DerivesLeftmostBy u (rs ++ rs') w := by
  induction h with
  | refl => exact h'
  | head known terminal after _ ih => exact .head known terminal after (ih h')

end Predictive.Grammar
