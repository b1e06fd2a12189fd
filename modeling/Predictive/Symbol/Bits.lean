-- SUMMARY: Sets of symbols as bit vectors indexed by symbol ID.
import Predictive.Symbol.Basic

/-!
# Symbol sets

A set is a row of bits, one for each symbol ID below its width. The width is part of the value:
two sets with the same members and different widths are different. Membership never depends on it.
-/

namespace Predictive

structure SymbolSet where
  bits : Array Bool
deriving DecidableEq, Repr

namespace SymbolSet

def empty : SymbolSet := ⟨#[]⟩

/-- A set of the given width that holds all symbols below it, or none. -/
def filled (width : Nat) (present : Bool) : SymbolSet :=
  ⟨Array.replicate width present⟩

def width (s : SymbolSet) : Nat := s.bits.size

/-- Symbols beyond the width are not members. -/
def contains (s : SymbolSet) (x : Symbol) : Bool :=
  s.bits[x.id]?.getD false

instance : Membership Symbol SymbolSet := ⟨fun s x => s.contains x = true⟩

instance (s : SymbolSet) (x : Symbol) : Decidable (x ∈ s) :=
  inferInstanceAs (Decidable (s.contains x = true))

/-- Every symbol can be looked up, those beyond the width too. -/
instance : GetElem SymbolSet Symbol Bool fun _ _ => True where
  getElem s x _ := s.contains x

/-- Widen the set to at least `width` symbols. -/
def widen (s : SymbolSet) (width : Nat) : SymbolSet :=
  ⟨s.bits ++ Array.replicate (width - s.width) false⟩

/-- Add a symbol, widening the set if the symbol lies beyond it. -/
def insert (s : SymbolSet) (x : Symbol) : SymbolSet :=
  ⟨(s.widen (x.id + 1)).bits.setIfInBounds x.id true⟩

/-- Remove a symbol. One beyond the width is no member, and the width stays. -/
def erase (s : SymbolSet) (x : Symbol) : SymbolSet :=
  ⟨s.bits.setIfInBounds x.id false⟩

/-- Add or remove a symbol. -/
def set (s : SymbolSet) (x : Symbol) (present : Bool) : SymbolSet :=
  if present then s.insert x else s.erase x

/-- The members in the order of their IDs. -/
def toList (s : SymbolSet) : List Symbol :=
  ((List.range s.width).map Symbol.mk).filter s.contains

def ofList (xs : List Symbol) : SymbolSet :=
  xs.foldl insert empty

/-- All members of both sets, in a set as wide as the wider one. -/
def union (s t : SymbolSet) : SymbolSet :=
  t.toList.foldl insert (s.widen t.width)

/-- The members of `s` that are not members of `t`, in a set as wide as `s`. -/
def diff (s t : SymbolSet) : SymbolSet :=
  t.toList.foldl erase s

def count (s : SymbolSet) : Nat := s.toList.length

def isEmpty (s : SymbolSet) : Bool := !s.bits.any id

end SymbolSet

end Predictive
