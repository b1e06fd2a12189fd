-- SUMMARY: Grammar symbols: their identity, their order, and the machine words that denote them.
import Std.Data.ExtTreeMap

/-!
# Symbols

A symbol is nothing but its ID. Names live in a `SymbolTable`, so that symbols of different
grammars may be compared and mixed: two of them are the same exactly when their IDs are.
-/

namespace Predictive

structure Symbol where
  id : Nat
deriving DecidableEq, Repr, Inhabited

namespace Symbol

/-- The symbol that every numbering begins with. In a grammar it is the end of input. -/
def first : Symbol := ⟨0⟩

/-- One more than the largest ID that a symbol can have outside this library. -/
def bound : Nat := UInt32.size - 1

/-- A symbol whose ID fits into the external form. -/
def Representable (x : Symbol) : Prop := x.id < bound

instance (x : Symbol) : Decidable x.Representable :=
  inferInstanceAs (Decidable (x.id < bound))

/-- The symbol that a machine word denotes. Only the low 32 bits count, and the word of all ones
    among them denotes no symbol. -/
def ofWord? (word : Nat) : Option Symbol :=
  let id := word % UInt32.size
  if id < bound then some ⟨id⟩ else none

/-! ## Order -/

instance : Ord Symbol := ⟨compareOn Symbol.id⟩

instance : LT Symbol := ⟨fun x y => x.id < y.id⟩

instance (x y : Symbol) : Decidable (x < y) :=
  inferInstanceAs (Decidable (x.id < y.id))

theorem compare_eq (x y : Symbol) : compare x y = compare x.id y.id := rfl

instance : Std.TransOrd Symbol :=
  inferInstanceAs (Std.TransCmp (compareOn Symbol.id))

instance : Std.LawfulEqOrd Symbol where
  eq_of_compare {x y} h := by
    rw [compare_eq, Std.LawfulEqOrd.compare_eq_iff_eq] at h
    cases x; cases y; simp_all

end Symbol

end Predictive
