-- SUMMARY: Grammar builders: collecting symbols and rules, checking them, and laying out the finished grammar.
import Predictive.Grammar.Basic
import Predictive.Grammar.Walk

/-!
# Builders

A builder collects symbols, nonterminals and rules in any order. A symbol may be used before it is
created. Only `build` looks at what was collected: it reports the first fault, or classifies the
symbols and lays the rules out in the order of `RuleGraph.order`. A symbol that was created but
neither declared nor mentioned in a rule is neither a terminal nor a nonterminal.
-/

namespace Predictive

/-- Why a builder makes no grammar. -/
inductive BuildError where
  /-- Neither a nonterminal nor a start symbol was ever given. -/
  | noRules
  /-- The end of input was declared a nonterminal. -/
  | endOfInputAsLhs
  /-- The builder never created this symbol. -/
  | foreignSymbol (x : Symbol)
deriving DecidableEq, Repr

def BuildError.message : BuildError → String
  | .noRules => "the grammar has no rules"
  | .endOfInputAsLhs => "the end of input `$` cannot have rules"
  | .foreignSymbol x => s!"symbol #{x.id} does not belong to this grammar"

structure Builder where
  table : SymbolTable
  /-- The symbol set as start, or else the nonterminal declared first. -/
  start? : Option Symbol
  /-- Nonterminals, each once, in the order of their declaration. -/
  declared : Array Symbol
  /-- Rules in the order they were added. -/
  rules : Array Rule
deriving DecidableEq, Repr

/-- What can be done with a builder. -/
inductive BuilderStep where
  | createSymbol (name? : Option String)
  | setStart (x : Symbol)
  | addRules (lhs : Symbol) (alternatives : List (List Symbol))
deriving DecidableEq, Repr

namespace Builder

/-! ## Collecting -/

/-- A builder that knows `$` and no rules. -/
def empty : Builder :=
  ⟨SymbolTable.empty.create (some endOfInputName), none, #[], #[]⟩

/-- Create one symbol, which is `b.table.next`. -/
def createSymbol (b : Builder) (name? : Option String) : Builder :=
  { b with table := b.table.create name? }

def setStart (b : Builder) (x : Symbol) : Builder :=
  { b with start? := some x }

/-- Declare a nonterminal. The first one becomes the start symbol if none is set. -/
def declare (b : Builder) (x : Symbol) : Builder :=
  { b with
    start? := b.start? <|> some x
    declared := if x ∈ b.declared then b.declared else b.declared.push x }

def addRule (b : Builder) (rule : Rule) : Builder :=
  { b with rules := b.rules.push rule }

/-- Declare a nonterminal and add a rule for each alternative. With no alternative it is declared
    all the same. -/
def addRules (b : Builder) (lhs : Symbol) (alternatives : List (List Symbol)) : Builder :=
  alternatives.foldl (fun b rhs => b.addRule ⟨lhs, rhs⟩) (b.declare lhs)

def perform (b : Builder) : BuilderStep → Builder
  | .createSymbol name? => b.createSymbol name?
  | .setStart x => b.setStart x
  | .addRules lhs alternatives => b.addRules lhs alternatives

/-- The builder that a history of steps leads to. -/
def ofSteps (steps : List BuilderStep) : Builder :=
  steps.foldl perform empty

/-! ## Checking -/

def foreign? (b : Builder) (x : Symbol) : Option BuildError :=
  if b.table.issued x then none else some (.foreignSymbol x)

def lhsFault? (b : Builder) (x : Symbol) : Option BuildError :=
  b.foreign? x <|> if x = Grammar.endOfInput then some .endOfInputAsLhs else none

/-- The symbols on right-hand sides, in the order of the rules. -/
def mentioned (b : Builder) : List Symbol :=
  b.rules.toList.flatMap Rule.rhs

/-- The first fault: a missing or foreign start symbol, then a fault among the declared
    nonterminals, then one on the right-hand sides. -/
def fault? (b : Builder) : Option BuildError :=
  match b.start? with
  | none => some .noRules
  | some start =>
    b.foreign? start
      <|> b.declared.toList.findSome? b.lhsFault?
      <|> b.mentioned.findSome? b.foreign?

/-! ## Laying out -/

def nonterminalSet (b : Builder) : SymbolSet :=
  b.declared.toList.foldl SymbolSet.insert (.filled b.table.size false)

/-- The end of input and every mentioned symbol that is no nonterminal. -/
def terminalSet (b : Builder) : SymbolSet :=
  let nonterminals := b.nonterminalSet
  (Grammar.endOfInput :: b.mentioned.filter fun x => !nonterminals.contains x).foldl
    SymbolSet.insert (.filled b.table.size false)

/-- The rules of one nonterminal, in the order they were added. -/
def rulesFor (b : Builder) (lhs : Symbol) : List Rule :=
  b.rules.toList.filter fun rule => rule.lhs == lhs

def graph (b : Builder) : RuleGraph where
  declared := b.declared.toList
  nonterminals := b.nonterminalSet
  mentions x := (b.rulesFor x).flatMap Rule.rhs

/-- The grammar that the collected rules make up with a given start symbol. -/
def layout (b : Builder) (start : Symbol) : Grammar :=
  let order := b.graph.order start
  { table := b.table
    start := start
    terminalSet := b.terminalSet
    nonterminalSet := b.nonterminalSet
    blocks := Block.layout 0 (order.map fun x => (x, (b.rulesFor x).length))
    rules := (order.flatMap b.rulesFor).toArray }

def build (b : Builder) : Except BuildError Grammar :=
  match b.fault?, b.start? with
  | some e, _ => .error e
  | none, none => .error .noRules
  | none, some start => .ok (b.layout start)

end Builder

end Predictive
