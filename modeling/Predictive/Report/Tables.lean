-- SUMMARY: The tables that show an analysis: sets, parse table and derivation, and a line on the outcome.
import Predictive.Analysis
import Predictive.Report.Box

namespace Predictive.Analysis

/-! ## Sets -/

def setText (a : Analysis) (s? : Option LookaheadSet) : String :=
  match s? with
  | none => ""
  | some s => s.display a.grammar

def setRow (a : Analysis) (x : Symbol) : List String :=
  [a.grammar.name x, a.setText (a.first.get? x), a.setText (a.follow.get? x)]

/-- The FIRST and FOLLOW sets of every nonterminal, in the order of the grammar. -/
def setTable (a : Analysis) : String :=
  Box.draw ["NONTERMINAL", "FIRST", "FOLLOW"] (a.grammar.nonterminals.map a.setRow)

/-! ## Parse table -/

/-- The terminals in the order of their names, and then the end of input. -/
def columns (a : Analysis) : List Symbol :=
  ((a.grammar.terminals.filter (· != Grammar.endOfInput)).mergeSort fun x y =>
    (compare (a.grammar.name x) (a.grammar.name y)).isLE) ++ [Grammar.endOfInput]

def cellText (a : Analysis) (nonterminal terminal : Symbol) : String :=
  match a.table.get? nonterminal terminal with
  | some (.rule r) => a.grammar.displayRhs r
  | some .extract => "extract"
  | some .explore => "explore"
  | none => ""

/-- The cells of every nonterminal, in the order of the grammar. -/
def cellTable (a : Analysis) : String :=
  let columns := a.columns
  Box.draw ("" :: columns.map a.grammar.name)
    (a.grammar.nonterminals.map fun x => a.grammar.name x :: columns.map (a.cellText x))

/-! ## Derivation -/

def stepRow (g : Grammar) (s : Step) : List String :=
  [g.names s.stackUpward, g.names s.config.input, s.action.display g]

/-- The steps of the run, the stack written from its bottom to its top. -/
def traceTable (a : Analysis) : String :=
  Box.draw ["STACK", "INPUT", "ACTION"] (a.trace.steps.map (stepRow a.grammar))

/-- One line on how the run ended. -/
def outcome (a : Analysis) : String :=
  match a.trace.status with
  | .accepted => if a.trace.hasErrors then "accepted after recovering from errors" else "accepted"
  | .rejected why => "rejected: " ++ why.message
  | .running => "running"

end Predictive.Analysis
