-- SUMMARY: Maps from symbols to lookahead sets, and how contributions enlarge them.
import Predictive.Lookahead.Set

namespace Predictive

/-- Lookahead sets of several symbols. -/
abbrev LookaheadMap := Std.ExtTreeMap Symbol LookaheadSet

/-- Something found to belong to the set of a symbol. -/
structure Contribution where
  target : Symbol
  part : LookaheadSet
deriving DecidableEq, Repr

namespace LookaheadMap

/-- Add a contribution to the set it is meant for. Symbols that have no set get none. -/
def contribute (m : LookaheadMap) (c : Contribution) : Growth LookaheadMap :=
  match m[c.target]? with
  | none => .still m
  | some s =>
    let g := s.union c.part
    ⟨m.insert c.target g.value, g.grew⟩

def contributeAll (m : LookaheadMap) (cs : List Contribution) : Growth LookaheadMap :=
  Growth.each contribute m cs

/-- An empty set for each of the given symbols. -/
def ofKeys (xs : List Symbol) : LookaheadMap :=
  xs.foldl (fun m x => m.insert x .empty) ∅

end LookaheadMap

end Predictive
