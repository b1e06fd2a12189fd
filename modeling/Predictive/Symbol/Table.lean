-- SUMMARY: Symbol tables: allocation of fresh symbols and the names they were created with.
import Predictive.Symbol.Basic

/-!
# Symbol tables

A table numbers its symbols from zero in the order of their creation and keeps an optional name for
each. Names are for display: two symbols may share one.
-/

namespace Predictive

structure SymbolTable where
  names : Array (Option String)
deriving DecidableEq, Repr

namespace SymbolTable

def empty : SymbolTable := ⟨#[]⟩

/-- The number of symbols created so far. -/
def size (t : SymbolTable) : Nat := t.names.size

/-- The symbol that the next creation yields. -/
def next (t : SymbolTable) : Symbol := ⟨t.size⟩

/-- Create one symbol, which is then `t.next`. -/
def create (t : SymbolTable) (name? : Option String) : SymbolTable :=
  ⟨t.names.push name?⟩

/-- Create `n` symbols without names. -/
def createMany (t : SymbolTable) (n : Nat) : SymbolTable :=
  ⟨t.names ++ Array.replicate n none⟩

/-- The symbols that separate `t` from a later state of itself, in the order of creation. -/
def createdSince (t later : SymbolTable) : List Symbol :=
  (List.range' t.size (later.size - t.size)).map Symbol.mk

def symbols (t : SymbolTable) : List Symbol :=
  (List.range t.size).map Symbol.mk

/-- Whether the table created the symbol. -/
def issued (t : SymbolTable) (x : Symbol) : Bool :=
  x.id < t.size

def nameOf? (t : SymbolTable) (x : Symbol) : Option String :=
  t.names[x.id]?.join

/-- The name of a symbol, or its number for one without a name. -/
def displayName (t : SymbolTable) (x : Symbol) : String :=
  (t.nameOf? x).getD s!"#{x.id}"

/-- The first symbol with the given name. -/
def find? (t : SymbolTable) (name : String) : Option Symbol :=
  t.symbols.find? fun x => t.nameOf? x == some name

end SymbolTable

end Predictive
