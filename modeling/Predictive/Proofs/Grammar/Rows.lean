-- SUMMARY: Building with rows that have a place for every symbol finds each index in range and makes the same grammar.
import Mathlib.Logic.Function.Basic
import Predictive.Proofs.Grammar.Renaming

/-!
# Rows

The rules and the block of a nonterminal can be kept in rows, which have a place for each symbol
that the builder created. A builder then passes once over the declared nonterminals, the rules and
the order, and looks at a symbol only when it comes to it. An index into a row is never checked
before: the left-hand side of a rule has a place only because it was declared, and everything
declared was looked at earlier. Building this way has the outcome of `Builder.build`.
-/

namespace Predictive

/-- Why building with rows ends without a grammar. -/
inductive Halt where
  | fault (e : BuildError)
  /-- The row has no place for this symbol. -/
  | outOfRange (x : Symbol)
deriving DecidableEq, Repr

/-! ## Single rows -/

namespace Row

variable {α : Type}

/-- What stands at the place of a symbol. -/
def read (row : Array α) (x : Symbol) : Except Halt α :=
  match row[x.id]? with
  | some a => .ok a
  | none => .error (.outOfRange x)

/-- Put something else at the place of a symbol. -/
def write (row : Array α) (x : Symbol) (a : α) : Except Halt (Array α) :=
  if x.id < row.size then .ok (row.setIfInBounds x.id a) else .error (.outOfRange x)

/-- The row has a place for each of `n` symbols, with the value of `f` there. -/
structure Holds (n : Nat) (f : Symbol → α) (row : Array α) : Prop where
  size : row.size = n
  getElem? : ∀ x : Symbol, x.id < n → row[x.id]? = some (f x)

variable {n : Nat} {f : Symbol → α} {row : Array α} {x : Symbol}

theorem holds_replicate (n : Nat) (a : α) : Holds n (fun _ => a) (Array.replicate n a) :=
  ⟨Array.size_replicate, fun x hx => by simp [hx]⟩

theorem Holds.read (h : Holds n f row) (hx : x.id < n) : read row x = .ok (f x) := by
  rw [Row.read, h.getElem? x hx]

theorem Holds.write (h : Holds n f row) (hx : x.id < n) (a : α) :
    ∃ row', write row x a = .ok row' ∧ Holds n (Function.update f x a) row' := by
  have hlt : x.id < row.size := h.size ▸ hx
  refine ⟨row.setIfInBounds x.id a, if_pos hlt, by rw [Array.size_setIfInBounds, h.size], ?_⟩
  intro y hy
  by_cases hyx : y = x
  · subst hyx
    simp [hlt]
  · have hid : x.id ≠ y.id := fun hid => hyx (by cases x; cases y; simp_all)
    rw [Array.getElem?_setIfInBounds_ne hid, h.getElem? y hy, Function.update_of_ne hyx]

end Row

/-! ## Building -/

namespace Builder

/-- Go on with `a` unless there is a fault. -/
def checked {α : Type} (fault? : Option BuildError) (a : α) : Except Halt α :=
  match fault? with
  | some e => .error (.fault e)
  | none => .ok a

/-- The set of the declared nonterminals, each of them looked at on the way. -/
def declaredSet (b : Builder) : Except Halt SymbolSet :=
  b.declared.toList.foldlM (fun s x => checked (b.lhsFault? x) (s.insert x))
    (.filled b.table.size false)

/-- What has been collected from some of the rules. -/
structure Collected where
  terminals : SymbolSet
  /-- The rules of each left-hand side. -/
  rules : Array (List Rule)

/-- A symbol that is not among the nonterminals is a terminal. -/
def classify (nonterminals terminals : SymbolSet) (x : Symbol) : SymbolSet :=
  if nonterminals.contains x then terminals else terminals.insert x

def collectRule (b : Builder) (nonterminals : SymbolSet) (c : Collected) (rule : Rule) :
    Except Halt Collected := do
  let terminals ← rule.rhs.foldlM
    (fun s x => checked (b.foreign? x) (classify nonterminals s x)) c.terminals
  let group ← Row.read c.rules rule.lhs
  let rules ← Row.write c.rules rule.lhs (group ++ [rule])
  .ok ⟨terminals, rules⟩

def collect (b : Builder) (nonterminals : SymbolSet) : Except Halt Collected :=
  b.rules.toList.foldlM (b.collectRule nonterminals)
    ⟨(SymbolSet.filled b.table.size false).insert Grammar.endOfInput,
      Array.replicate b.table.size []⟩

/-- A step of the walk that reads the rules of the visited symbol at its place in the row. -/
def stepRow (nonterminals : SymbolSet) (rules : Array (List Rule)) (w : Walk) :
    Except Halt Walk :=
  match w.stack with
  | [] => .ok w
  | x :: _ =>
    if w.visited.contains x then .ok (w.step ⟨[], nonterminals, fun _ => []⟩)
    else do
      let group ← Row.read rules x
      .ok (w.step ⟨[], nonterminals, fun _ => group.flatMap Rule.rhs⟩)

def runRow (nonterminals : SymbolSet) (rules : Array (List Rule)) : Nat → Walk → Except Halt Walk
  | 0, w => .ok w
  | n + 1, w => do runRow nonterminals rules n (← stepRow nonterminals rules w)

/-- A grammar that is laid out up to some nonterminal. -/
structure Laid where
  /-- The rules that are not laid out yet. -/
  waiting : Array (List Rule)
  blocks : Array (Option Block)
  rules : Array Rule

/-- Lay out the rules of the next nonterminal. -/
def Laid.add (l : Laid) (x : Symbol) : Except Halt Laid := do
  let group ← Row.read l.waiting x
  let waiting ← Row.write l.waiting x []
  let blocks ← Row.write l.blocks x (some ⟨x, l.rules.size, group.length⟩)
  .ok ⟨waiting, blocks, l.rules ++ group.toArray⟩

/-- Order the nonterminals and lay out the collected rules. -/
def layWithRows (b : Builder) (start : Symbol) (nonterminals : SymbolSet) (c : Collected) :
    Except Halt Grammar := do
  let declared := b.declared.toList
  let w ← runRow nonterminals c.rules declared.length
    (.init ⟨declared, nonterminals, fun _ => []⟩ start)
  let order := w.visits.toList.map Visit.symbol ++ declared.filter fun x => !w.visited.contains x
  let l ← order.foldlM Laid.add ⟨c.rules, Array.replicate b.table.size none, #[]⟩
  .ok {
    table := b.table
    start := start
    terminalSet := c.terminals
    nonterminalSet := nonterminals
    blocks := order.filterMap fun x => l.blocks[x.id]?.join
    rules := l.rules }

def buildWithRows (b : Builder) : Except Halt Grammar :=
  match b.start? with
  | none => .error (.fault .noRules)
  | some start => do
    let start ← checked (b.foreign? start) start
    let nonterminals ← b.declaredSet
    b.layWithRows start nonterminals (← b.collect nonterminals)

/-! ## Passing over the symbols -/

section

variable {α : Type} {b : Builder} {x : Symbol} {n : Nat}

theorem checked_bind {β : Type} (e : Option BuildError) (a : α) (f : α → Except Halt β) :
    checked e a >>= f = match e with
      | some e => .error (.fault e)
      | none => f a := by
  cases e <;> rfl

/-- Checks that are made one by one report the first fault. -/
theorem foldlM_checked (fault? : Symbol → Option BuildError) (f : α → Symbol → α) (a : α)
    (xs : List Symbol) :
    xs.foldlM (fun a x => checked (fault? x) (f a x)) a =
      checked (xs.findSome? fault?) (xs.foldl f a) := by
  induction xs generalizing a with
  | nil => rfl
  | cons x xs ih =>
    rw [List.foldlM_cons, checked_bind, List.findSome?_cons, List.foldl_cons]
    cases fault? x with
    | none => exact ih (f a x)
    | some e => rfl

theorem declaredSet_eq (b : Builder) :
    b.declaredSet = checked (b.declared.toList.findSome? b.lhsFault?) b.nonterminalSet :=
  foldlM_checked b.lhsFault? SymbolSet.insert _ b.declared.toList

theorem foldl_classify (nonterminals s : SymbolSet) (xs : List Symbol) :
    xs.foldl (classify nonterminals) s =
      (xs.filter fun x => !nonterminals.contains x).foldl SymbolSet.insert s := by
  rw [List.foldl_filter]
  congr 1
  funext s x
  cases h : nonterminals.contains x <;> simp [classify, h]

/-! ## Collecting -/

/-- The rules with the left-hand side `x`, in order. -/
def grouped (rules : List Rule) (x : Symbol) : List Rule := rules.filter fun rule => rule.lhs == x

theorem update_grouped (rules : List Rule) (rule : Rule) :
    Function.update (grouped rules) rule.lhs (grouped rules rule.lhs ++ [rule]) =
      grouped (rules ++ [rule]) := by
  funext x
  by_cases hx : x = rule.lhs
  · subst hx
    simp [grouped]
  · have hne : (rule.lhs == x) = false := beq_eq_false_iff_ne.2 (Ne.symm hx)
    simp [grouped, hx, hne]

/-- The rules are grouped by their left-hand sides, up to the first foreign symbol. -/
theorem foldlM_collectRule (b : Builder) (nonterminals : SymbolSet) {rules : List Rule}
    (hlhs : ∀ rule ∈ rules, rule.lhs.id < n) (before : List Rule) {c : Collected}
    (hc : Row.Holds n (grouped before) c.rules) :
    ∃ row, Row.Holds n (grouped (before ++ rules)) row ∧
      rules.foldlM (b.collectRule nonterminals) c =
        checked ((rules.flatMap Rule.rhs).findSome? b.foreign?)
          ⟨(rules.flatMap Rule.rhs).foldl (classify nonterminals) c.terminals, row⟩ := by
  induction rules generalizing before c with
  | nil => exact ⟨c.rules, by simpa using hc, rfl⟩
  | cons rule rules ih =>
    obtain ⟨hrule, hrules⟩ := List.forall_mem_cons.1 hlhs
    obtain ⟨row, hwrite, hrow⟩ := hc.write hrule (grouped before rule.lhs ++ [rule])
    rw [update_grouped] at hrow
    let terminals := rule.rhs.foldl (classify nonterminals) c.terminals
    have hstep : b.collectRule nonterminals c rule =
        checked (rule.rhs.findSome? b.foreign?) ⟨terminals, row⟩ := by
      rw [collectRule, foldlM_checked, checked_bind, hc.read hrule]
      cases rule.rhs.findSome? b.foreign? with
      | some e => rfl
      | none => simp only [bind, Except.bind, hwrite, checked, terminals]
    obtain ⟨row', hrow', hrest⟩ := ih hrules (before ++ [rule]) (c := ⟨terminals, row⟩) hrow
    refine ⟨row', by simpa using hrow', ?_⟩
    rw [List.foldlM_cons, hstep, checked_bind, List.flatMap_cons, List.findSome?_append,
      List.foldl_append]
    cases rule.rhs.findSome? b.foreign? with
    | some e => rfl
    | none => exact hrest

theorem collect_eq (hlhs : ∀ rule ∈ b.rules, rule.lhs.id < b.table.size) :
    ∃ row, Row.Holds b.table.size b.rulesFor row ∧
      b.collect b.nonterminalSet =
        checked (b.mentioned.findSome? b.foreign?) ⟨b.terminalSet, row⟩ := by
  obtain ⟨row, hrow, hcollect⟩ := foldlM_collectRule b b.nonterminalSet
    (fun rule hrule => hlhs rule (Array.mem_toList_iff.1 hrule)) []
    (c := ⟨(SymbolSet.filled b.table.size false).insert Grammar.endOfInput, _⟩)
    (Row.holds_replicate b.table.size [])
  refine ⟨row, hrow, hcollect.trans ?_⟩
  rw [foldl_classify]
  rfl

end

/-! ## Walking -/

section

variable {graph graph' : RuleGraph} {w : Walk} {n : Nat} {f : Symbol → List Rule}
  {row : Array (List Rule)} {x : Symbol}

/-- A step looks at nothing of the graph but the nonterminals and what the visited symbol
    mentions. -/
theorem step_congr (hnonterminals : graph'.nonterminals = graph.nonterminals)
    (hmentions : ∀ x, w.stack.head? = some x → w.visited.contains x = false →
      graph'.mentions x = graph.mentions x) : w.step graph' = w.step graph := by
  unfold Walk.step
  split
  · rfl
  · next x rest hstack =>
    dsimp only
    split
    · rfl
    · next hx =>
      rw [hmentions x (by rw [hstack]; rfl) (by simpa using hx)]
      simp only [Walk.discover, hnonterminals]

/-- Nothing but nonterminals is visited, and these have a place. -/
theorem stepRow_eq (hrow : Row.Holds n f row)
    (hgraph : ∀ x, graph.mentions x = (f x).flatMap Rule.rhs)
    (hplace : ∀ x, graph.nonterminals.contains x = true → x.id < n) (h : w.Sound graph) :
    stepRow graph.nonterminals row w = .ok (w.step graph) := by
  unfold stepRow
  split
  · next hstack => simp [Walk.step, hstack]
  · next x rest hstack =>
    have hx : x.id < n := hplace x (h.stack x (by simp [hstack]))
    have hhead : ∀ y, w.stack.head? = some y → y = x := fun y hy => by simpa [hstack] using hy.symm
    split
    · next hvisited =>
      refine congrArg Except.ok (step_congr rfl fun y hy hfresh => ?_)
      simp [hhead y hy, hvisited] at hfresh
    · rw [hrow.read hx]
      refine congrArg Except.ok (step_congr rfl fun y hy _ => ?_)
      rw [hhead y hy, hgraph]

theorem runRow_eq (hrow : Row.Holds n f row)
    (hgraph : ∀ x, graph.mentions x = (f x).flatMap Rule.rhs)
    (hplace : ∀ x, graph.nonterminals.contains x = true → x.id < n) (h : w.Sound graph)
    (steps : Nat) : runRow graph.nonterminals row steps w = .ok (w.run graph steps) := by
  induction steps generalizing w with
  | zero => rfl
  | succ steps ih =>
    rw [runRow, stepRow_eq hrow hgraph hplace h, Walk.run]
    exact ih h.step

/-! ## Laying out -/

/-- The rules of each nonterminal are taken from its place, and its block is put there. -/
theorem foldlM_add {xs : List Symbol} (hnodup : xs.Nodup) (hplace : ∀ x ∈ xs, x.id < n) {l : Laid}
    {blocks : Symbol → Option Block} (hwaiting : Row.Holds n f l.waiting)
    (hblocks : Row.Holds n blocks l.blocks) :
    ∃ l' blocks', xs.foldlM Laid.add l = .ok l' ∧ Row.Holds n blocks' l'.blocks ∧
      (∀ y, y ∉ xs → blocks' y = blocks y) ∧
      l'.rules = l.rules ++ (xs.flatMap f).toArray ∧
      xs.filterMap blocks' = Block.layout l.rules.size (xs.map fun x => (x, (f x).length)) := by
  induction xs generalizing l f blocks with
  | nil => exact ⟨l, blocks, rfl, hblocks, fun _ _ => rfl, by simp, rfl⟩
  | cons x xs ih =>
    obtain ⟨hx, hnodup⟩ := List.nodup_cons.1 hnodup
    obtain ⟨hxn, hplace⟩ := List.forall_mem_cons.1 hplace
    let block : Block := ⟨x, l.rules.size, (f x).length⟩
    obtain ⟨waiting, hwrite, hwaiting'⟩ := hwaiting.write hxn []
    obtain ⟨row, hput, hrow⟩ := hblocks.write hxn (some block)
    have hstep : l.add x = .ok ⟨waiting, row, l.rules ++ (f x).toArray⟩ := by
      rw [Laid.add, hwaiting.read hxn]
      simp only [bind, Except.bind, hwrite, hput, block]
    obtain ⟨l', blocks', hrest, hl', hkept, hrules, hlayout⟩ :=
      ih hnodup hplace (l := ⟨waiting, row, l.rules ++ (f x).toArray⟩) hwaiting' hrow
    have hothers : ∀ y ∈ xs, Function.update f x [] y = f y :=
      fun y hy => Function.update_of_ne (ne_of_mem_of_not_mem hy hx) [] f
    have hhead : blocks' x = some block := by rw [hkept x hx, Function.update_self]
    refine ⟨l', blocks', by rw [List.foldlM_cons, hstep]; exact hrest, hl', fun y hy => ?_, ?_, ?_⟩
    · obtain ⟨hyx, hyxs⟩ := not_or.1 (List.mem_cons.not.1 hy)
      rw [hkept y hyxs, Function.update_of_ne hyx]
    · rw [hrules, List.flatMap_congr hothers, List.flatMap_cons]
      simp
    · have hsizes : (xs.map fun y => (y, (Function.update f x [] y).length)) =
          xs.map fun y => (y, (f y).length) :=
        List.map_congr_left fun y hy => by rw [hothers y hy]
      rw [List.filterMap_cons_some hhead, hlayout, hsizes, List.map_cons, Block.layout]
      simp [block]

end

/-! ## The outcome -/

theorem lt_size_of_mem_declared {b : Builder}
    (hdeclared : b.declared.toList.findSome? b.lhsFault? = none) :
    ∀ x ∈ b.declared, x.id < b.table.size := by
  intro x hx
  have hfault := List.findSome?_eq_none_iff.1 hdeclared x (Array.mem_toList_iff.2 hx)
  rw [lhsFault?, Option.orElse_eq_orElse, Option.orElse_eq_or, Option.or_eq_none_iff] at hfault
  exact foreign?_eq_none.1 hfault.1

/-- Every visited and every ordered symbol is declared and so has a place. -/
theorem layWithRows_eq {b : Builder} (hplace : ∀ x ∈ b.declared, x.id < b.table.size)
    (hnodup : b.declared.toList.Nodup) {row : Array (List Rule)}
    (hrow : Row.Holds b.table.size b.rulesFor row) (start : Symbol) :
    b.layWithRows start b.nonterminalSet ⟨b.terminalSet, row⟩ = .ok (b.layout start) := by
  have hmentions : ∀ x, b.graph.mentions x = (b.rulesFor x).flatMap Rule.rhs := fun _ => rfl
  have hwalk := runRow_eq hrow hmentions
    (fun x hx => hplace x ((contains_nonterminalSet b x).1 hx)) (.init b.graph start)
    b.declared.toList.length
  have horder : ∀ x ∈ b.graph.order start, x.id < b.table.size :=
    fun x hx => hplace x ((mem_order b start x).1 hx)
  obtain ⟨l, blocks, hadd, hblocks, -, hrules, hlayout⟩ :=
    foldlM_add (RuleGraph.nodup_order hnodup start) horder
      (l := ⟨row, Array.replicate b.table.size none, #[]⟩) hrow (Row.holds_replicate _ none)
  have hread : (b.graph.order start).filterMap (fun x => l.blocks[x.id]?.join) =
      (b.layout start).blocks := by
    refine Eq.trans (List.filterMap_congr fun x hx => ?_) hlayout
    rw [hblocks.getElem? x (horder x hx), Option.join_some]
  have hrules : l.rules = (b.layout start).rules := by simpa [layout] using hrules
  refine (congrArg (· >>= _) hwalk).trans ?_
  change (b.graph.order start).foldlM Laid.add _ >>= _ = _
  rw [hadd]
  simp only [bind, Except.bind, Except.ok.injEq, hrules]
  exact congrArg (fun blocks => { b.layout start with blocks := blocks }) hread

/-- Building with rows has the same outcome. In particular no index is out of range. -/
theorem buildWithRows_eq {b : Builder} (hlhs : ∀ rule ∈ b.rules, rule.lhs ∈ b.declared)
    (hnodup : b.declared.toList.Nodup) : b.buildWithRows = b.build.mapError Halt.fault := by
  unfold buildWithRows build fault?
  cases hstart : b.start? with
  | none => rfl
  | some start =>
    simp only [checked_bind, declaredSet_eq, Option.orElse_eq_orElse, Option.orElse_eq_or]
    cases hforeign : b.foreign? start with
    | some e => rfl
    | none =>
      cases hdeclared : b.declared.toList.findSome? b.lhsFault? with
      | some e => rfl
      | none =>
        have hplace := lt_size_of_mem_declared hdeclared
        obtain ⟨row, hrow, hcollect⟩ := collect_eq fun rule hrule => hplace _ (hlhs rule hrule)
        rw [hcollect, checked_bind]
        cases b.mentioned.findSome? b.foreign? with
        | some e => rfl
        | none => exact layWithRows_eq hplace hnodup hrow start

end Builder

end Predictive
