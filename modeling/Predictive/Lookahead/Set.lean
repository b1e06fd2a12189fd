-- SUMMARY: Lookahead sets: terminals in the order of their IDs, possibly with the empty string.
import Predictive.Lookahead.Growth
import Predictive.Grammar.Basic

/-!
# Lookahead sets

What can come next in an input: some terminals, and perhaps nothing at all. The terminals are kept
in strictly ascending order, so that sets with the same elements are equal.
-/

namespace Predictive

structure LookaheadSet where
  hasEmpty : Bool
  terminals : List Symbol
deriving DecidableEq, Repr

namespace LookaheadSet

def empty : LookaheadSet := ⟨false, []⟩

/-- The set of the empty string alone. -/
def epsilon : LookaheadSet := ⟨true, []⟩

def singleton (x : Symbol) : LookaheadSet := ⟨false, [x]⟩

/-- Look for a terminal in an ascending list, up to the place where it belongs. -/
def search (x : Symbol) : List Symbol → Bool
  | [] => false
  | y :: ys =>
    match compare x y with
    | .lt => false
    | .eq => true
    | .gt => search x ys

def contains (s : LookaheadSet) (x : Symbol) : Bool := search x s.terminals

/-- Put a terminal at its place in an ascending list, unless it is there. -/
def insertSorted (x : Symbol) : List Symbol → Growth (List Symbol)
  | [] => ⟨[x], true⟩
  | y :: ys =>
    match compare x y with
    | .lt => ⟨x :: y :: ys, true⟩
    | .eq => .still (y :: ys)
    | .gt =>
      let rest := insertSorted x ys
      ⟨y :: rest.value, rest.grew⟩

def insert (s : LookaheadSet) (x : Symbol) : Growth LookaheadSet :=
  let g := insertSorted x s.terminals
  ⟨{ s with terminals := g.value }, g.grew⟩

/-- Add the terminals of `t`, leaving out the empty string. -/
def unionTerminals (s t : LookaheadSet) : Growth LookaheadSet :=
  Growth.each insert s t.terminals

/-- Add the empty string if it is given. -/
def addEmpty (s : LookaheadSet) (hasEmpty : Bool) : Growth LookaheadSet :=
  ⟨{ s with hasEmpty := s.hasEmpty || hasEmpty }, hasEmpty && !s.hasEmpty⟩

/-- Add everything that is in `t`. -/
def union (s t : LookaheadSet) : Growth LookaheadSet :=
  (s.unionTerminals t).andThen fun s => s.addEmpty t.hasEmpty

def withoutEmpty (s : LookaheadSet) : LookaheadSet := { s with hasEmpty := false }

/-- The number of elements, the empty string among them. -/
def size (s : LookaheadSet) : Nat := s.terminals.length + s.hasEmpty.toNat

def isEmpty (s : LookaheadSet) : Bool := s.size == 0

/-- A set written with the names of a grammar, the empty string last. -/
def display (s : LookaheadSet) (g : Grammar) : String :=
  if s.isEmpty then "\x7b\x7d"
  else
    let names := s.terminals.map g.name ++ if s.hasEmpty then [epsilonText] else []
    "\x7b " ++ String.intercalate ", " names ++ " \x7d"

end LookaheadSet

end Predictive
