-- SUMMARY: What can follow a nonterminal is what stands next to it in derived strings, and FOLLOW sets hold it where rules erase at their end only.
import Predictive.Proofs.ParseTable.LL1

/-!
# Neighbours in derived strings

Two symbols that stand next to each other in a derived string come out of two symbols of one rule,
with nothing left between them. The way down to the first of them goes along the right end of its
tree, so everything that can follow the symbol of the rule can follow this one as well. For a
grammar in which no symbol between the two erases, looking at the next symbol of a rule is enough to
find all neighbours.
-/

namespace Predictive

namespace Grammar

/-- The terminal stands right behind the nonterminal in a string that some nonterminal derives, or
    comes with the end of the input behind the string that the start symbol derives. -/
def StandsBefore (g : Grammar) (a x : Symbol) : Prop :=
  (∃ b u v, g.isNonterminal b = true ∧ g.Derives [b] (u ++ a :: x :: v)) ∨
    x = endOfInput ∧ g.isNonterminal g.start = true ∧ ∃ u, g.Derives [g.start] (u ++ [a])

variable {g : Grammar} {a b x : Symbol} {u v w : List Symbol}

theorem Derives.rule_at {rule : Rule} (mem : rule ∈ g.rules) (h : g.Derives rule.rhs w)
    (u v : List Symbol) : g.Derives (u ++ rule.lhs :: v) (u ++ w ++ v) := by
  have hlhs := (((Derives.of_rule mem).trans h).append_left u).append_right v
  simpa using hlhs

theorem Derives.eq_nil (h : g.Derives [] v) : v = [] := by
  obtain ⟨f, -, hroots, rfl⟩ := Forest.exists_of_derives h
  cases f with
  | nil => rfl
  | leaf => simp at hroots
  | node => simp at hroots

/-! ## From rules to derived strings -/

theorem CanFollow.standsBefore (hwf : g.WellFormed) (h : g.CanFollow a x) : g.StandsBefore a x := by
  induction h with
  | start nonterminal => exact .inr ⟨rfl, nonterminal, [], .refl _⟩
  | @inner rule mem before after w b x occurs nonterminal terminal begins =>
    have hrhs : g.Derives rule.rhs (before ++ b :: x :: w) := by
      simpa [occurs] using begins.append_left (before ++ [b])
    exact .inl ⟨rule.lhs, before, w, hwf.nonterminal_lhs rule mem, (Derives.of_rule mem).trans hrhs⟩
  | @outer rule mem before after b x occurs nonterminal erases follows ih =>
    have hrhs : g.Derives rule.rhs (before ++ [b]) := by
      simpa [occurs] using erases.append_left (before ++ [b])
    rcases ih with ⟨d, u, v, hd, hderives⟩ | ⟨rfl, hstart, u, hderives⟩
    · refine .inl ⟨d, u ++ before, v, hd, ?_⟩
      simpa using hderives.trans (Derives.rule_at mem hrhs u (x :: v))
    · refine .inr ⟨rfl, hstart, u ++ before, ?_⟩
      simpa using hderives.trans (Derives.rule_at mem hrhs u [])

end Grammar

/-! ## From derived strings to rules -/

namespace Forest

variable {g : Grammar} {f : Forest} {a d : Symbol} {u rest : List Symbol}

/-- The nonterminal comes out of one of the roots, at the right end of its tree: what stands behind
    this root derives the rest, and whatever can follow the root can follow the nonterminal. -/
def Leads (g : Grammar) (f : Forest) (a : Symbol) (rest : List Symbol) : Prop :=
  ∃ before b after, f.roots = before ++ b :: after ∧ g.Derives after rest ∧
    g.isNonterminal b = true ∧ ∀ x, g.CanFollow b x → g.CanFollow a x

theorem Leads.of_right {right : Forest} {y : Symbol}
    (h : right.Leads g a rest) (hroots : f.roots = y :: right.roots) : f.Leads g a rest := by
  obtain ⟨before, b, after, hright, hb⟩ := h
  exact ⟨y :: before, b, after, by rw [hroots, hright, List.cons_append], hb⟩

/-- If there is one root, nothing stands behind it. -/
theorem Leads.of_root (h : f.Leads g a rest) (hroots : f.roots = [d]) :
    rest = [] ∧ ∀ x, g.CanFollow d x → g.CanFollow a x := by
  obtain ⟨before, b, after, hleads, hafter, -, hfollow⟩ := h
  obtain ⟨-, rfl, rfl⟩ : before = [] ∧ b = d ∧ after = [] := by
    rw [hroots] at hleads
    cases before <;> simp_all
  exact ⟨hafter.eq_nil, hfollow⟩

/-- A nonterminal among the leaves comes out of a root at the right end of its tree, or the leaf
    behind it comes out of the same root and can follow it. -/
theorem leads_or_canFollow (hwf : g.WellFormed) (hf : f.Valid g) (ha : g.isNonterminal a = true)
    (hyield : f.yield = u ++ a :: rest) :
    f.Leads g a rest ∨ ∃ x v, rest = x :: v ∧ (g.isTerminal x = true → g.CanFollow a x) := by
  induction f generalizing u rest with
  | nil => simp at hyield
  | leaf y right ih =>
    have hright : right.Valid g := hf
    cases u with
    | nil =>
      obtain ⟨rfl, rfl⟩ := List.cons.inj hyield
      exact .inl ⟨[], y, right.roots, rfl, hright.derives, ha, fun _ hx => hx⟩
    | cons z u =>
      obtain ⟨rfl, hyield'⟩ := List.cons.inj hyield
      exact (ih hright hyield').imp_left fun hleads => hleads.of_right rfl
  | node y r below right ihbelow ihright =>
    obtain ⟨hrule, hbelow, hright⟩ := hf
    have hmem := Grammar.mem_rules_of_rule? hrule
    have hinright : ∀ u, right.yield = u ++ a :: rest → Leads g (.node y r below right) a rest ∨
        ∃ x v, rest = x :: v ∧ (g.isTerminal x = true → g.CanFollow a x) := fun u hyield =>
      (ihright hright hyield).imp_left fun hleads => hleads.of_right rfl
    rcases List.append_eq_append_iff.1 hyield with ⟨u', -, hyield⟩ | ⟨rest', hybelow, hyield⟩
    · exact hinright u' hyield
    · cases rest' with
      | nil => exact hinright [] hyield.symm
      | cons z rest' =>
        obtain ⟨rfl, rfl⟩ := List.cons.inj hyield
        rcases ihbelow hbelow hybelow with
          ⟨before, b, after, hroots, hafter, hb, hfollow⟩ | ⟨x, v, rfl, hx⟩
        · cases rest' with
          | nil =>
            -- Nothing is left behind the nonterminal below the node.
            refine .inl ⟨[], y, right.roots, rfl, hright.derives, hwf.nonterminal_of_rule? hrule,
              fun x hx => hfollow x (.outer hmem hroots hb hafter hx)⟩
          | cons x v =>
            exact .inr ⟨x, v ++ right.yield, rfl, fun hx =>
              hfollow x (.inner hmem hroots hb hx hafter)⟩
        · exact .inr ⟨x, v ++ right.yield, rfl, hx⟩

end Forest

namespace Grammar

variable {g : Grammar} {a x : Symbol}

theorem StandsBefore.canFollow (hwf : g.WellFormed) (ha : g.isNonterminal a = true)
    (hx : g.isTerminal x = true) (h : g.StandsBefore a x) : g.CanFollow a x := by
  rcases h with ⟨d, u, v, hd, hderives⟩ | ⟨rfl, hstart, u, hderives⟩
  · obtain ⟨f, hf, hroots, hyield⟩ := Forest.exists_of_derives hderives
    rcases Forest.leads_or_canFollow hwf hf ha hyield with hleads | ⟨y, v, hv, hy⟩
    · cases (hleads.of_root hroots).1
    · obtain ⟨rfl, -⟩ := List.cons.inj hv
      exact hy hx
  · obtain ⟨f, hf, hroots, hyield⟩ := Forest.exists_of_derives hderives
    rcases Forest.leads_or_canFollow hwf hf ha hyield with hleads | ⟨y, v, hv, -⟩
    · exact (hleads.of_root hroots).2 _ (.start hstart)
    · cases hv

/-- A terminal can follow a nonterminal if it stands behind it in a derived string. -/
theorem canFollow_iff_standsBefore (hwf : g.WellFormed) (ha : g.isNonterminal a = true)
    (hx : g.isTerminal x = true) : g.CanFollow a x ↔ g.StandsBefore a x :=
  ⟨fun h => h.standsBefore hwf, fun h => h.canFollow hwf ha hx⟩

/-! ## Grammars that erase at the end of rules only -/

/-- Behind a nonterminal, a symbol that erases is the last one of its rule. -/
def ErasesLast (g : Grammar) : Prop :=
  ∀ rule ∈ g.rules, ∀ before b c after, rule.rhs = before ++ b :: c :: after →
    g.isNonterminal b = true → g.Nullable c → after = []

theorem ErasesLast.erasesOnward (h : g.ErasesLast) : g.ErasesOnward := by
  intro rule hrule before b c after hrhs hb hc
  rw [h rule hrule before b c after hrhs hb hc]
  exact .refl []

/-- This is checked at each end of a right-hand side. -/
theorem erasesLast_iff_tails (hwf : g.WellFormed) : g.ErasesLast ↔
    ∀ rule ∈ g.rules.toList, ∀ t ∈ rule.rhs.tails, ∀ b ∈ t.head?, ∀ c ∈ t.tail.head?,
      g.isNonterminal b = true → ((FirstSets.ofGrammar g).ofString [c]).hasEmpty = true →
        t.tail.tail = [] := by
  simp only [FirstSets.hasEmpty_ofString_iff_derives hwf, Array.mem_toList_iff, List.mem_tails]
  refine ⟨?_, fun h rule hrule before b c after hrhs => ?_⟩
  · rintro h rule hrule t ⟨before, hrhs⟩ b hb c hc
    obtain ⟨rest, rfl⟩ := List.head?_eq_some_iff.1 hb
    obtain ⟨after, rfl⟩ := List.head?_eq_some_iff.1 hc
    exact h rule hrule before b c after hrhs.symm
  · exact h rule hrule (b :: c :: after) ⟨before, hrhs.symm⟩ b rfl c rfl

end Grammar

namespace FollowSets

variable {g : Grammar} {first : FirstSets} {a c x : Symbol} {after : List Symbol}

theorem nextBegins_of_begins (hwf : g.WellFormed) (h : (FirstSets.ofGrammar g).Begins c x) :
    NextBegins (.ofGrammar g) (c :: after) x := by
  unfold FirstSets.Begins at h
  split at h
  · next hterm =>
    rw [(FirstSets.sound_ofGrammar hwf).terminalSet] at hterm
    exact ⟨.singleton c, FirstSets.get?_of_terminal hwf hterm, by simp [h, LookaheadSet.singleton]⟩
  · exact h

theorem nextErases_of_hasEmpty (h : (first.ofString after).hasEmpty = true) :
    NextErases first after := by
  intro s hs
  cases after with
  | nil => simp at hs
  | cons c after =>
    obtain ⟨-, s', hs', hempty⟩ := (FirstSets.hasEmpty_ofString_cons.1 h).1
    obtain rfl : s = s' := Option.some.inj (hs.symm.trans hs')
    exact hempty

/-- The next symbol of a rule is all that matters to FOLLOW then. -/
theorem closed_of_erasesLast (hwf : g.WellFormed) (h : g.ErasesLast) :
    (ofGrammar g (.ofGrammar g)).Closed g (.ofGrammar g) := by
  have hobeys := obeys_ofGrammar hwf (.ofGrammar g)
  refine ⟨hobeys.start, ?_, ?_⟩
  · intro rule hrule before b after hrhs hb x hx
    cases after with
    | nil => exact absurd hx FirstSets.mem_ofString_nil
    | cons c after =>
      refine hobeys.next rule hrule before b _ hrhs hb x ?_
      rcases FirstSets.mem_ofString_cons.1 hx with hbegins | ⟨herases, hx⟩
      · exact nextBegins_of_begins hwf hbegins
      · have hnull := (FirstSets.sound_ofGrammar hwf).nullable_of_erases herases
        rw [h rule hrule before b c after hrhs hb hnull] at hx
        exact absurd hx FirstSets.mem_ofString_nil
  · intro rule hrule before b after hrhs hb hempty
    exact hobeys.outer rule hrule before b after hrhs hb (nextErases_of_hasEmpty hempty)

/-- If symbols that erase behind a nonterminal are the last of their rules, the FOLLOW set of a
    nonterminal has the terminals that stand behind it in derived strings, and no other ones. -/
theorem has_iff_standsBefore (hbuilt : g.Built) (h : g.ErasesLast)
    (ha : g.isNonterminal a = true) (hx : g.isTerminal x = true) :
    (ofGrammar g (.ofGrammar g)).sets.Has a x ↔ g.StandsBefore a x := by
  have hwf := hbuilt.wellFormed
  rw [← Grammar.canFollow_iff_standsBefore hwf ha hx]
  have hclosed := closed_of_erasesLast hwf h
  exact ⟨(h.erasesOnward.obeys hbuilt).of_has hwf, hclosed.has_of_canFollow hwf⟩

/-- The steps that collect `S → A x`, `A → y A C | ε` and `C → z | ε`. -/
def trailingSteps : List BuilderStep :=
  [.createSymbol (some "S"), .createSymbol (some "A"), .createSymbol (some "x"),
    .createSymbol (some "y"), .createSymbol (some "C"), .createSymbol (some "z"),
    .addRules ⟨1⟩ [[⟨2⟩, ⟨3⟩]], .addRules ⟨2⟩ [[⟨4⟩, ⟨2⟩, ⟨5⟩], []], .addRules ⟨5⟩ [[⟨6⟩], []]]

def trailing : Grammar := (Builder.ofSteps trailingSteps).layout ⟨1⟩

/-- In derived strings `z`, of another `C`, stands behind `C`, but `y` never does. -/
theorem has_iff_standsBefore_trailing : trailing.Built ∧ trailing.ErasesLast ∧
    trailing.StandsBefore ⟨5⟩ ⟨6⟩ ∧ ¬ trailing.StandsBefore ⟨5⟩ ⟨4⟩ ∧
    trailing.StandsBefore ⟨1⟩ Grammar.endOfInput := by
  have hbuilt : trailing.Built :=
    ⟨trailingSteps, Builder.build_of_fault? (by decide +kernel) rfl⟩
  have herases : trailing.ErasesLast :=
    (Grammar.erasesLast_iff_tails hbuilt.wellFormed).2 (by decide +kernel)
  have hiff : ∀ a x, trailing.isNonterminal a = true → trailing.isTerminal x = true →
      ((ofGrammar trailing (.ofGrammar trailing)).sets.Has a x ↔ trailing.StandsBefore a x) :=
    fun _ _ => has_iff_standsBefore hbuilt herases
  refine ⟨hbuilt, herases, (hiff _ _ ?_ ?_).1 ?_, mt (hiff _ _ ?_ ?_).2 ?_, (hiff _ _ ?_ ?_).1 ?_⟩
  all_goals decide +kernel

end FollowSets

end Predictive
