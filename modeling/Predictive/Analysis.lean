-- SUMMARY: The whole analysis: load a grammar, compute its sets and its table, and parse an input.
import Predictive.Grammar.Listing
import Predictive.Vocabulary
import Predictive.Parse.Parser

namespace Predictive

/-- Why an analysis does not get to parsing. -/
inductive AnalysisError where
  | load (e : LoadError)
  | lex (e : LexError)
  | emptyInput
deriving DecidableEq, Repr

def AnalysisError.message : AnalysisError → String
  | .load e => e.message
  | .lex e => e.message
  | .emptyInput => "the input is empty"

structure Analysis where
  grammar : Grammar
  first : FirstSets
  follow : FollowSets
  table : ParseTable
  tokens : List Symbol
  trace : Trace
deriving DecidableEq

namespace Analysis

/-- Parse tokens of a grammar, keeping everything computed on the way. -/
def ofTokens (g : Grammar) (tokens : List Symbol) (options : RunOptions) : Analysis :=
  let first := FirstSets.ofGrammar g
  let follow := FollowSets.ofGrammar g first
  let table := ParseTable.withSets g first follow
  ⟨g, first, follow, table, tokens, Parser.parse ⟨g, table, options⟩ tokens⟩

/-- Analyse a raw input with the grammar of a listing. There must be something to parse. -/
def ofText (listing input : String) (options : RunOptions) : Except AnalysisError Analysis :=
  match Grammar.load listing with
  | .error e => .error (.load e)
  | .ok g =>
    match g.tokenize input with
    | .error e => .error (.lex e)
    | .ok [] => .error .emptyInput
    | .ok tokens => .ok (ofTokens g tokens options)

end Analysis

end Predictive
