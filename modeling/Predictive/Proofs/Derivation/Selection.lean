-- SUMMARY: Derivation trees that a parse table selects, and FOLLOW sets that are large enough for them.
import Mathlib.Data.List.Infix
import Predictive.Proofs.Derivation.Forest
import Predictive.Proofs.Lookahead.First
import Predictive.Proofs.ParseTable.Conflicts

/-!
# Selected trees

Below a table, a tree is selected if the table has every rule of the tree in the cell where a parser
looks it up: the one for the node and for the terminal that comes first at or after the node. For a
table without conflicts the only thing that can keep a tree from being selected is a FOLLOW set that
misses the terminal after a node which yields the empty string.
-/

namespace Predictive

/-! ## FIRST sets of trees -/

namespace Forest

variable {g : Grammar} {f : Forest}

theorem not_contains_of_rule? (hwf : g.WellFormed) {r : RuleId} {rule : Rule}
    (hrule : g.rule? r = some rule) :
    (FirstSets.ofGrammar g).terminalSet.contains rule.lhs = false := by
  rw [(FirstSets.sound_ofGrammar hwf).terminalSet]
  exact hwf.not_terminal _ (hwf.nonterminal_of_rule? hrule)

/-- The roots of a forest that yields nothing have the empty string in their FIRST set. -/
theorem hasEmpty_of_yield (hwf : g.WellFormed) (hf : f.Valid g) (hyield : f.yield = []) :
    ((FirstSets.ofGrammar g).ofString f.roots).hasEmpty = true := by
  induction f with
  | nil => exact FirstSets.hasEmpty_ofString_nil
  | leaf y rest => simp at hyield
  | node y r below rest ihbelow ihrest =>
    obtain ⟨hrule, hbelow, hrest⟩ := hf
    obtain ⟨hybelow, hyrest⟩ := List.append_eq_nil_iff.1 hyield
    have hempty := FirstSets.hasEmpty_of_rule hwf (Grammar.mem_rules_of_rule? hrule)
      (ihbelow hbelow hybelow)
    exact FirstSets.hasEmpty_ofString_cons.2
      ⟨⟨not_contains_of_rule? hwf hrule, hempty⟩, ihrest hrest hyrest⟩

/-- The terminal that a forest yields first is in the FIRST set of its roots. -/
theorem mem_first_of_yield (hwf : g.WellFormed) (hf : f.Valid g) {x : Symbol} {xs : List Symbol}
    (hx : g.isTerminal x = true) (hyield : f.yield = x :: xs) :
    x ∈ ((FirstSets.ofGrammar g).ofString f.roots).terminals := by
  induction f generalizing xs with
  | nil => simp at hyield
  | leaf y rest =>
    obtain ⟨rfl, -⟩ := List.cons.inj hyield
    refine FirstSets.mem_ofString_cons.2 (.inl ?_)
    rw [FirstSets.Begins, if_pos]
    rw [(FirstSets.sound_ofGrammar hwf).terminalSet]
    exact hx
  | node y r below rest ihbelow ihrest =>
    obtain ⟨hrule, hbelow, hrest⟩ := hf
    have hmem := Grammar.mem_rules_of_rule? hrule
    have hy := not_contains_of_rule? hwf hrule
    refine FirstSets.mem_ofString_cons.2 ?_
    cases hbyield : below.yield with
    | nil =>
      -- A node that yields nothing lets through to the trees on its right.
      have hempty := FirstSets.hasEmpty_of_rule hwf hmem (hasEmpty_of_yield hwf hbelow hbyield)
      rw [yield, hbyield] at hyield
      exact .inr ⟨⟨hy, hempty⟩, ihrest hrest hyield⟩
    | cons x' xs' =>
      obtain rfl : x' = x := by simpa [hbyield] using congrArg List.head? hyield
      refine .inl ?_
      rw [FirstSets.Begins, if_neg (by simp [hy])]
      exact FirstSets.has_of_rule hwf hmem (ihbelow hbelow hbyield)

/-- What a forest yields is found in the FIRST sets of its roots. -/
theorem first_of_yield (hwf : g.WellFormed) (hf : f.Valid g)
    (hterm : ∀ x ∈ f.yield, g.isTerminal x = true) :
    (∀ x xs, f.yield = x :: xs → x ∈ ((FirstSets.ofGrammar g).ofString f.roots).terminals) ∧
      (f.yield = [] → ((FirstSets.ofGrammar g).ofString f.roots).hasEmpty = true) :=
  ⟨fun x _ h => mem_first_of_yield hwf hf (hterm x (by simp [h])) h, hasEmpty_of_yield hwf hf⟩

/-! ## Selected trees -/

/-- The table has the rule of every inner node in the cell where it is looked up, when `next` comes
    after the forest. -/
@[simp] def Selected (t : ParseTable) : Forest → Symbol → Prop
  | .nil, _ => True
  | .leaf _ rest, next => rest.Selected t next
  | .node x r below rest, next =>
    t.get? x (below.yield.headD (rest.yield.headD next)) = some (.rule r) ∧
      below.Selected t (rest.yield.headD next) ∧ rest.Selected t next

/-- Wherever an inner node yields nothing, the terminal that comes next is in its FOLLOW set, when
    `next` comes after the forest. -/
@[simp] def Followed (follow : FollowSets) : Forest → Symbol → Prop
  | .nil, _ => True
  | .leaf _ rest, next => rest.Followed follow next
  | .node x _ below rest, next =>
    (below.yield = [] → follow.sets.Has x (rest.yield.headD next)) ∧
      below.Followed follow (rest.yield.headD next) ∧ rest.Followed follow next

instance Followed.decidable (follow : FollowSets) :
    (f : Forest) → (next : Symbol) → Decidable (f.Followed follow next)
  | .nil, _ => inferInstanceAs (Decidable True)
  | .leaf _ rest, next => Followed.decidable follow rest next
  | .node x _ below rest, next =>
    have := Followed.decidable follow below (rest.yield.headD next)
    have := Followed.decidable follow rest next
    inferInstanceAs (Decidable
      ((below.yield = [] → follow.sets.Has x (rest.yield.headD next)) ∧
        below.Followed follow (rest.yield.headD next) ∧ rest.Followed follow next))

theorem selected_append (t : ParseTable) (f f' : Forest) (next : Symbol) :
    (f.append f').Selected t next ↔
      f.Selected t (f'.yield.headD next) ∧ f'.Selected t next := by
  induction f with
  | nil => simp
  | leaf x rest ih => simpa using ih
  | node x r below rest _ ih => simp [ih, and_assoc]

section Tables

variable {follow : FollowSets} {next : Symbol} (hwf : g.WellFormed)
  (hfree : (ParseTable.withSets g (.ofGrammar g) follow).overwritten = 0)
include hwf hfree

/-- Large FOLLOW sets are enough for selection. -/
theorem Followed.selected (hf : f.Valid g) (hterm : ∀ x ∈ f.yield, g.isTerminal x = true)
    (h : f.Followed follow next) :
    f.Selected (ParseTable.withSets g (.ofGrammar g) follow) next := by
  induction f generalizing next with
  | nil => trivial
  | leaf x rest ih => exact ih hf (List.forall_mem_cons.1 hterm).2 h
  | node x r below rest ihbelow ihrest =>
    obtain ⟨hrule, hbelow, hrest⟩ := hf
    obtain ⟨hfollow, hfbelow, hfrest⟩ := h
    obtain ⟨htbelow, htrest⟩ := List.forall_mem_append.1 hterm
    obtain ⟨hfirst, hnone⟩ := first_of_yield hwf hbelow htbelow
    refine ⟨?_, ihbelow hbelow htbelow hfbelow, ihrest hrest htrest hfrest⟩
    refine ParseTable.get?_of_claims hfree ⟨_, hrule, rfl, ?_⟩
    cases hyield : below.yield with
    | nil => exact .inr ⟨hnone hyield, hfollow hyield⟩
    | cons y ys => exact .inl (hfirst y ys hyield)

/-- Trees that are selected although they yield nothing come before a terminal that they do not
    begin with. -/
theorem Selected.notMem_first (hf : f.Valid g) (hyield : f.yield = [])
    (h : f.Selected (ParseTable.withSets g (.ofGrammar g) follow) next) :
    next ∉ ((FirstSets.ofGrammar g).ofString f.roots).terminals := by
  induction f with
  | nil => exact FirstSets.mem_ofString_nil
  | leaf x rest => simp at hyield
  | node x r below rest ihbelow ihrest =>
    obtain ⟨hrule, hbelow, hrest⟩ := hf
    obtain ⟨hybelow, hyrest⟩ := List.append_eq_nil_iff.1 hyield
    simp only [Selected, hybelow, hyrest, List.headD_nil] at h
    obtain ⟨hcell, hsbelow, hsrest⟩ := h
    have hsound := FirstSets.sound_ofGrammar hwf
    have hx : g.isNonterminal x = true := hwf.nonterminal_of_rule? hrule
    intro hmem
    rcases FirstSets.mem_ofString_cons.1 hmem with hbegins | ⟨-, hmem⟩
    · have hset : (FirstSets.ofGrammar g).terminalSet.contains x = false := by
        rw [hsound.terminalSet]
        exact hwf.not_terminal x hx
      rw [FirstSets.Begins, if_neg (by simp [hset])] at hbegins
      -- Some rule begins with `next`, and no other one than this one has its cell.
      obtain ⟨rule, hrule', hlhs, hfirst⟩ := hsound.supported x next hx hbegins
      obtain ⟨r', hr'⟩ := Grammar.exists_rule?_of_mem hrule'
      have hclaim := ParseTable.get?_of_claims hfree ⟨rule, hr', hlhs, .inl hfirst⟩
      obtain rfl : r = r' := by simpa [hcell] using hclaim
      obtain rfl : ⟨x, below.roots⟩ = rule := by simpa [hrule] using hr'
      exact ihbelow hbelow hybelow hsbelow hfirst
    · exact ihrest hrest hyrest hsrest hmem

/-- Selection needs the FOLLOW sets to be large enough. -/
theorem Selected.followed (hf : f.Valid g)
    (h : f.Selected (ParseTable.withSets g (.ofGrammar g) follow) next) :
    f.Followed follow next := by
  induction f generalizing next with
  | nil => trivial
  | leaf x rest ih => exact ih hf h
  | node x r below rest ihbelow ihrest =>
    obtain ⟨hrule, hbelow, hrest⟩ := hf
    obtain ⟨hcell, hsbelow, hsrest⟩ := h
    refine ⟨fun hyield => ?_, ihbelow hbelow hsbelow, ihrest hrest hsrest⟩
    have hnot := hsbelow.notMem_first hwf hfree hbelow hyield
    rw [hyield, List.headD_nil] at hcell
    obtain ⟨rule, hrule', -, hclaim⟩ := ParseTable.claims_of_get? hcell
    obtain rfl : ⟨x, below.roots⟩ = rule := by simpa [hrule] using hrule'
    rcases hclaim with hfirst | ⟨-, hfollow⟩
    · exact absurd hfirst hnot
    · exact hfollow

end Tables

end Forest

/-! ## Closed FOLLOW sets -/

namespace FollowSets

/-- When `next` comes after the string, every nonterminal in it is followed by what the rest of the
    string begins with, and by `next` if the rest erases. -/
def Admits (g : Grammar) (first : FirstSets) (follow : FollowSets) (xs : List Symbol)
    (next : Symbol) : Prop :=
  ∀ before b after, xs = before ++ b :: after → g.isNonterminal b = true →
    (∀ x ∈ (first.ofString after).terminals, follow.sets.Has b x) ∧
      ((first.ofString after).hasEmpty = true → follow.sets.Has b next)

/-- The sets satisfy the equations of FOLLOW, or are larger: the end of input follows the start
    symbol, and in each rule `A → … B …` the rest after `B`, and what follows `A` if the rest
    erases, follows `B`. -/
structure Closed (g : Grammar) (first : FirstSets) (follow : FollowSets) : Prop where
  start : g.isNonterminal g.start = true → follow.sets.Has g.start Grammar.endOfInput
  inner : ∀ rule ∈ g.rules, ∀ before b after, rule.rhs = before ++ b :: after →
    g.isNonterminal b = true → ∀ x ∈ (first.ofString after).terminals, follow.sets.Has b x
  outer : ∀ rule ∈ g.rules, ∀ before b after, rule.rhs = before ++ b :: after →
    g.isNonterminal b = true → (first.ofString after).hasEmpty = true →
    ∀ x, follow.sets.Has rule.lhs x → follow.sets.Has b x

variable {g : Grammar} {first : FirstSets} {follow : FollowSets} {x next : Symbol}
  {xs : List Symbol}

/-- The equations are checked at each end of a right-hand side. -/
theorem closed_iff_tails : Closed g first follow ↔
    (g.isNonterminal g.start = true → follow.sets.Has g.start Grammar.endOfInput) ∧
      ∀ rule ∈ g.rules.toList, ∀ t ∈ rule.rhs.tails, ∀ b ∈ t.head?, g.isNonterminal b = true →
        (∀ x ∈ (first.ofString t.tail).terminals, follow.sets.Has b x) ∧
          ((first.ofString t.tail).hasEmpty = true →
            ∀ x ∈ (follow.get? rule.lhs).elim [] LookaheadSet.terminals, follow.sets.Has b x) := by
  have houter : ∀ a x, x ∈ (follow.get? a).elim [] LookaheadSet.terminals ↔
      follow.sets.Has a x := by
    intro a x
    unfold get? LookaheadMap.Has
    cases follow.sets[a]? <;> simp
  simp only [houter, Array.mem_toList_iff, List.mem_tails]
  refine ⟨fun h => ⟨h.start, ?_⟩, fun ⟨hstart, h⟩ => ⟨hstart, ?_, ?_⟩⟩
  · rintro rule hrule t ⟨before, hrhs⟩ b hb hnonterm
    obtain ⟨after, rfl⟩ := List.head?_eq_some_iff.1 hb
    exact ⟨h.inner rule hrule before b after hrhs.symm hnonterm,
      h.outer rule hrule before b after hrhs.symm hnonterm⟩
  · intro rule hrule before b after hrhs hb
    exact (h rule hrule (b :: after) ⟨before, hrhs.symm⟩ b rfl hb).1
  · intro rule hrule before b after hrhs hb
    exact (h rule hrule (b :: after) ⟨before, hrhs.symm⟩ b rfl hb).2

instance : Decidable (Closed g first follow) :=
  decidable_of_iff _ closed_iff_tails.symm

theorem Admits.tail (h : Admits g first follow (x :: xs) next) : Admits g first follow xs next :=
  fun before b after hxs => h (x :: before) b after (by simp [hxs])

theorem Closed.admits_rhs (h : Closed g first follow) {rule : Rule} (hrule : rule ∈ g.rules)
    (hnext : follow.sets.Has rule.lhs next) : Admits g first follow rule.rhs next :=
  fun before b after hrhs hb =>
    ⟨h.inner rule hrule before b after hrhs hb,
      fun hempty => h.outer rule hrule before b after hrhs hb hempty next hnext⟩

theorem Closed.admits_start (h : Closed g first follow) :
    Admits g first follow [g.start] Grammar.endOfInput := by
  intro before b after hxs hb
  obtain ⟨rfl, rfl, rfl⟩ : before = [] ∧ b = g.start ∧ after = [] := by
    cases before <;> simp_all
  exact ⟨fun x hx => absurd hx FirstSets.mem_ofString_nil, fun _ => h.start hb⟩

/-- Closed sets are large enough for every tree. -/
theorem Closed.followed (h : Closed g (.ofGrammar g) follow) (hwf : g.WellFormed) {f : Forest}
    (hf : f.Valid g) (hterm : ∀ y ∈ f.yield, g.isTerminal y = true)
    (hadmits : Admits g (.ofGrammar g) follow f.roots next) : f.Followed follow next := by
  induction f generalizing next with
  | nil => trivial
  | leaf x rest ih => exact ih hf (List.forall_mem_cons.1 hterm).2 hadmits.tail
  | node x r below rest ihbelow ihrest =>
    obtain ⟨hrule, hbelow, hrest⟩ := hf
    obtain ⟨htbelow, htrest⟩ := List.forall_mem_append.1 hterm
    obtain ⟨hfirst, hnone⟩ := Forest.first_of_yield hwf hrest htrest
    have hx : g.isNonterminal x = true := hwf.nonterminal_of_rule? hrule
    obtain ⟨hinner, houter⟩ := hadmits [] x rest.roots rfl hx
    have hfollow : follow.sets.Has x (rest.yield.headD next) := by
      cases hyield : rest.yield with
      | nil => exact houter (hnone hyield)
      | cons y ys => exact hinner y (hfirst y ys hyield)
    have hadmits' := h.admits_rhs (Grammar.mem_rules_of_rule? hrule) hfollow
    exact ⟨fun _ => hfollow, ihbelow hbelow htbelow hadmits',
      ihrest hrest htrest hadmits.tail⟩

end FollowSets

end Predictive
