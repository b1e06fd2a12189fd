-- SUMMARY: FIRST sets: the terminals that strings of symbols can begin with.
import Predictive.Lookahead.Map

/-!
# FIRST sets

A terminal begins with itself. The set of a nonterminal collects what its right-hand sides begin
with. All sets are computed together, in passes over the rules; a pass reads the sets as they were
when it began.
-/

namespace Predictive

structure FirstSets where
  sets : LookaheadMap
  /-- The terminals of the grammar that the sets were computed for. -/
  terminalSet : SymbolSet
deriving DecidableEq

namespace FirstSets

def get? (f : FirstSets) (x : Symbol) : Option LookaheadSet := f.sets[x]?

/-- Whether the symbol derives the empty string. -/
def isNullable (f : FirstSets) (x : Symbol) : Bool :=
  match f.get? x with
  | none => false
  | some s => s.hasEmpty

/-- What a string can begin with. A symbol hides the rest of the string unless it derives the empty
    string; an unknown symbol derives nothing. -/
def ofString (f : FirstSets) : List Symbol → LookaheadSet
  | [] => .epsilon
  | x :: rest =>
    if f.terminalSet.contains x then .singleton x
    else
      match f.get? x with
      | none => .empty
      | some s => if s.hasEmpty then ((ofString f rest).unionTerminals s).value else s

/-- What the rules of a grammar contribute to the sets of their left-hand sides. -/
def contributions (f : FirstSets) (g : Grammar) : List Contribution :=
  g.rules.toList.map fun rule => ⟨rule.lhs, f.ofString rule.rhs⟩

/-- The sets before the first pass: each terminal has its own, those of nonterminals are empty. -/
def init (g : Grammar) : FirstSets where
  sets := g.terminals.foldl (fun m x => m.insert x (.singleton x))
    (LookaheadMap.ofKeys g.nonterminals)
  terminalSet := g.terminalSet

/-- One pass over the rules. -/
def pass (g : Grammar) (f : FirstSets) : Growth FirstSets :=
  let next := f.sets.contributeAll (f.contributions g)
  ⟨{ f with sets := next.value }, next.grew⟩

/-- No more passes than this are needed: each but the last adds a terminal or the empty string to
    the set of a nonterminal. -/
def passBound (g : Grammar) : Nat :=
  g.nonterminals.length * (g.terminals.length + 1) + 1

def solve (g : Grammar) : Saturation FirstSets :=
  saturate (pass g) (passBound g) (init g)

/-- The FIRST sets of a grammar. -/
def ofGrammar (g : Grammar) : FirstSets := (solve g).value

end FirstSets

end Predictive
