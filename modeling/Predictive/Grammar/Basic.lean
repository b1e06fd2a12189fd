-- SUMMARY: Context-free grammars prepared for predictive parsing: rules, rule numbers, and the blocks they are laid out in.
import Predictive.Symbol.Table
import Predictive.Symbol.Bits

/-!
# Grammars

A grammar numbers its rules. The rules of one nonterminal stand next to each other, in a block, and
the blocks follow the order of the nonterminals. `Grammar/Builder.lean` makes grammars and fixes
that order.
-/

namespace Predictive

/-- The name of the terminal that ends every input. -/
def endOfInputName : String := "$"

/-- How the empty string is written. -/
def epsilonText : String := "ε"

/-- A rule, by its position in the grammar. -/
structure RuleId where
  index : Nat
deriving DecidableEq, Repr

/-- A rule: `lhs` may be replaced by `rhs`, which erases it if empty. -/
structure Rule where
  lhs : Symbol
  rhs : List Symbol
deriving DecidableEq, Repr

/-- The rules of one nonterminal: `count` of them, beginning with rule number `first`. -/
structure Block where
  lhs : Symbol
  first : Nat
  count : Nat
deriving DecidableEq, Repr

structure Grammar where
  table : SymbolTable
  start : Symbol
  terminalSet : SymbolSet
  nonterminalSet : SymbolSet
  blocks : List Block
  rules : Array Rule
deriving DecidableEq, Repr

/-! ## Blocks -/

namespace Block

/-- Lay out blocks of the given sizes one after the other, from rule number `first` on. -/
def layout (first : Nat) : List (Symbol × Nat) → List Block
  | [] => []
  | (lhs, count) :: rest => ⟨lhs, first, count⟩ :: layout (first + count) rest

def ruleIds (b : Block) : List RuleId :=
  (List.range' b.first b.count).map RuleId.mk

end Block

/-! ## Symbols -/

namespace Grammar

/-- The terminal that ends every input, `$`. -/
def endOfInput : Symbol := Symbol.first

def isTerminal (g : Grammar) (x : Symbol) : Bool := g.terminalSet.contains x

def isNonterminal (g : Grammar) (x : Symbol) : Bool := g.nonterminalSet.contains x

/-- The terminals in the order of their IDs, so `$` comes first. -/
def terminals (g : Grammar) : List Symbol := g.terminalSet.toList

/-- The nonterminals in the order of their blocks. -/
def nonterminals (g : Grammar) : List Symbol := g.blocks.map Block.lhs

def name (g : Grammar) (x : Symbol) : String := g.table.displayName x

/-- The names of several symbols, separated by blanks. -/
def names (g : Grammar) (xs : List Symbol) : String :=
  String.intercalate " " (xs.map g.name)

/-- The first symbol with the given name. -/
def find? (g : Grammar) (name : String) : Option Symbol := g.table.find? name

/-! ## Rules -/

def rule? (g : Grammar) (r : RuleId) : Option Rule := g.rules[r.index]?

/-- All rules with their numbers. -/
def numberedRules (g : Grammar) : List (RuleId × Rule) :=
  g.rules.toList.zipIdx.map fun (rule, i) => (⟨i⟩, rule)

/-- The block of a nonterminal. Other symbols have none. -/
def block? (g : Grammar) (x : Symbol) : Option Block :=
  g.blocks.find? fun b => b.lhs == x

/-- The rules of one block, in order. -/
def rulesIn (g : Grammar) (b : Block) : List Rule :=
  (g.rules.extract b.first (b.first + b.count)).toList

/-- The rules that a symbol has on their left, with their numbers. -/
def rulesOf (g : Grammar) (x : Symbol) : List (RuleId × Rule) :=
  match g.block? x with
  | none => []
  | some b => b.ruleIds.zip (g.rulesIn b)

/-- Every nonterminal with its rules. -/
def productions (g : Grammar) : List (Symbol × List Rule) :=
  g.blocks.map fun b => (b.lhs, g.rulesIn b)

end Grammar

end Predictive
