-- SUMMARY: What the command line does with a request: the texts it reads, what it prints, and how it exits.
import Predictive.CommandLine.Arguments
import Predictive.CommandLine.FileTree
import Predictive.Report.Tables

/-!
# Sessions

A session reads its grammar, then its input, analyses them, and prints what was asked for. Files are
read through a function, so that a session can run in any monad.
-/

namespace Predictive.CommandLine

/-- Why a session ends without a result. -/
inductive SessionError where
  | read (path : String) (why : ReadError)
  | noInput
  | analysis (e : AnalysisError)
deriving DecidableEq, Repr

def SessionError.message : SessionError → String
  | .read path why => "cannot read " ++ path ++ ": " ++ why.message
  | .noInput => "no input given"
  | .analysis e => e.message

/-- What a command leaves behind. -/
structure Outcome where
  exitCode : Nat
  stdout : String
  stderr : String
deriving DecidableEq, Repr

namespace Outcome

/-- The exit code is 2 for errors. -/
def ofError (e : SessionError) : Outcome := ⟨2, "", "error: " ++ e.message ++ "\n"⟩

def versionText : String := "ll1 0.1.0\n"

def helpText : String := "LL(1) grammar analyzer

Usage: ll1 [OPTIONS] [GRAMMAR] [INPUT]

Arguments:
  [GRAMMAR]  Path to the grammar file, one production per line
  [INPUT]    Input to parse, terminals optionally separated by whitespace

Options:
      --input-file <INPUT_FILE>  Read the input from a file
      --sets                     Print FIRST and FOLLOW sets
      --table                    Print the parse table
      --max-steps <MAX_STEPS>    Maximal number of parse steps [default: 10000]
      --no-step-limit            Parse without a step limit
      --example <EXAMPLE>        Use a built-in grammar and input [possible values: 1, 2]
  -h, --help                     Print help
  -V, --version                  Print version
"

def ofRefusal : Refusal → Outcome
  | .usage =>
    ⟨2, "", "error: these arguments do not go together\n\nFor more information, try '--help'.\n"⟩
  | .help => ⟨0, helpText, ""⟩
  | .version => ⟨0, versionText, ""⟩

end Outcome

namespace Request

/-- What a request prints about an analysis. -/
def report (r : Request) (a : Analysis) : String :=
  (if r.showSets then a.setTable ++ "\n" else "")
    ++ (if r.showTable then a.cellTable ++ "\n" else "")
    ++ a.traceTable ++ a.outcome ++ "\n"

/-- The outcome for texts that were read. The exit code tells whether the input was accepted. -/
def respond (r : Request) (listing input : String) : Outcome :=
  match Analysis.ofText listing input r.options with
  | .error e => .ofError (.analysis e)
  | .ok a => ⟨if a.trace.isAccepted then 0 else 1, r.report a, ""⟩

variable {m : Type → Type} [Monad m]

/-- Read a file, or report that it cannot be read. -/
def readFile (read : String → m (Except ReadError String)) (path : String) :
    m (Except SessionError String) := do
  match ← read path with
  | .ok text => return .ok text
  | .error why => return .error (.read path why)

def grammarText (read : String → m (Except ReadError String)) :
    GrammarSource → m (Except SessionError String)
  | .file path => readFile read path
  | .sample s => pure (.ok s.listing)

def inputText (read : String → m (Except ReadError String)) :
    InputSource → m (Except SessionError String)
  | .given text => pure (.ok text)
  | .file path => readFile read path
  | .sample s => pure (.ok s.input)
  | .missing => pure (.error .noInput)

/-- Carry out a request. The grammar is read before the input. -/
def execute (r : Request) (read : String → m (Except ReadError String)) : m Outcome := do
  match ← grammarText read r.grammar with
  | .error e => return .ofError e
  | .ok listing =>
    match ← inputText read r.input with
    | .error e => return .ofError e
    | .ok input => return r.respond listing input

/-- Carry out a request on the files of a tree. -/
def executeIn (r : Request) (t : FileTree) : Outcome :=
  Id.run (r.execute fun path => pure (t.read path))

end Request

end Predictive.CommandLine
