-- SUMMARY: FOLLOW sets: the terminals that can stand right after a nonterminal.
import Predictive.Lookahead.First

/-!
# FOLLOW sets

Where a rule `A → … B C …` mentions a nonterminal `B`, what `C` begins with may follow `B`; and what
follows `A` may follow `B` if `C` derives the empty string, or if nothing comes after `B`. No symbol
beyond `C` is looked at, even if `C` derives the empty string.
-/

namespace Predictive

structure FollowSets where
  sets : LookaheadMap
deriving DecidableEq

namespace FollowSets

def get? (f : FollowSets) (x : Symbol) : Option LookaheadSet := f.sets[x]?

/-- What the symbols after an occurrence contribute to the FOLLOW set of `x`, where `outer` is the
    FOLLOW set of the rule's left-hand side. A next symbol that `first` does not know counts as
    none. -/
def occurrence (first : FirstSets) (outer : LookaheadSet) (x : Symbol) (after : List Symbol) :
    List Contribution :=
  match after.head?.bind first.get? with
  | none => [⟨x, outer.withoutEmpty⟩]
  | some s =>
    ⟨x, s.withoutEmpty⟩ :: if s.hasEmpty then [⟨x, outer.withoutEmpty⟩] else []

/-- The contributions of every symbol of a right-hand side. -/
def ofRhs (first : FirstSets) (outer : LookaheadSet) : List Symbol → List Contribution
  | [] => []
  | x :: after => occurrence first outer x after ++ ofRhs first outer after

/-- What the rules of a grammar contribute. Rules whose left-hand side has no set contribute
    nothing. -/
def contributions (f : FollowSets) (g : Grammar) (first : FirstSets) : List Contribution :=
  g.rules.toList.flatMap fun rule =>
    match f.get? rule.lhs with
    | none => []
    | some outer => ofRhs first outer rule.rhs

/-- The sets before the first pass: all are empty, but that the end of input may follow the start
    symbol. -/
def init (g : Grammar) : FollowSets where
  sets := ((LookaheadMap.ofKeys g.nonterminals).contribute
    ⟨g.start, .singleton Grammar.endOfInput⟩).value

/-- One pass over the rules. It reads the sets as they were when it began. -/
def pass (g : Grammar) (first : FirstSets) (f : FollowSets) : Growth FollowSets :=
  let next := f.sets.contributeAll (f.contributions g first)
  ⟨⟨next.value⟩, next.grew⟩

/-- The different terminals in all FIRST sets. -/
def firstTerminals (first : FirstSets) : List Symbol :=
  (first.sets.values.flatMap LookaheadSet.terminals).eraseDups

/-- No more passes than this are needed: each but the last adds a terminal to the set of a
    nonterminal, and that is the end of input or a terminal of a FIRST set. -/
def passBound (g : Grammar) (first : FirstSets) : Nat :=
  g.nonterminals.length * ((firstTerminals first).length + 1) + 1

def solve (g : Grammar) (first : FirstSets) : Saturation FollowSets :=
  saturate (pass g first) (passBound g first) (init g)

/-- The FOLLOW sets of a grammar, with FIRST sets that may be those of another one. -/
def ofGrammar (g : Grammar) (first : FirstSets) : FollowSets := (solve g first).value

end FollowSets

end Predictive
