-- SUMMARY: The arguments of the command line and how they are read.
import Predictive.CommandLine.Sample
import Predictive.Text.Split
import Predictive.Parse.Parser

/-!
# Arguments

Arguments are read from left to right. Options may stand anywhere before a lone `--`, their values
follow them or are attached with `=`, and everything else is a positional argument: the path of a
grammar and then an input. The first fault, or the first request for help or for the version, ends
the reading. Only when all arguments are read is their combination checked.
-/

namespace Predictive.CommandLine

/-- Where a run gets its grammar from. -/
inductive GrammarSource where
  | file (path : String)
  | sample (s : Sample)
deriving DecidableEq, Repr

/-- Where a run gets its input from. -/
inductive InputSource where
  | given (text : String)
  | file (path : String)
  | sample (s : Sample)
  | missing
deriving DecidableEq, Repr

/-- What a run is asked to do. -/
structure Request where
  grammar : GrammarSource
  input : InputSource
  showSets : Bool
  showTable : Bool
  options : RunOptions
deriving DecidableEq, Repr

/-- Why arguments make up no request. -/
inductive Refusal where
  | usage
  | help
  | version
deriving DecidableEq, Repr

/-- The arguments read so far. -/
structure Arguments where
  grammar? : Option String := none
  input? : Option String := none
  inputFile? : Option String := none
  sets : Bool := false
  table : Bool := false
  maxSteps? : Option Nat := none
  noStepLimit : Bool := false
  sample? : Option Sample := none
deriving DecidableEq, Repr

namespace Arguments

/-! ## Single arguments -/

/-- A number of steps: digits, perhaps after a plus sign, for a number of 64 bits. -/
def readSteps? (text : String) : Option Nat :=
  let digits := match text.toList with
    | '+' :: cs => cs
    | cs => cs
  if digits.isEmpty || !digits.all Char.isDigit then none
  else
    let n := Nat.ofDigitChars 10 digits 0
    if n < UInt64.size then some n else none

def addPositional (a : Arguments) (text : String) : Except Refusal Arguments :=
  match a.grammar?, a.input? with
  | none, _ => if text.isEmpty then .error .usage else .ok { a with grammar? := some text }
  | some _, none => .ok { a with input? := some text }
  | some _, some _ => .error .usage

/-- The names of options that take a value. -/
def valueOptions : List String := ["input-file", "max-steps", "example"]

/-- Take an option with its value. Each may be given once. -/
def addOption (a : Arguments) (name value : String) : Except Refusal Arguments :=
  match name with
  | "input-file" =>
    if a.inputFile?.isSome || value.isEmpty then .error .usage
    else .ok { a with inputFile? := some value }
  | "max-steps" =>
    match a.maxSteps?, readSteps? value with
    | none, some n => .ok { a with maxSteps? := some n }
    | _, _ => .error .usage
  | "example" =>
    match a.sample?, Sample.ofNumber? value with
    | none, some s => .ok { a with sample? := some s }
    | _, _ => .error .usage
  | _ => .error .usage

/-- Take an option without a value. Each may be given once. -/
def addFlag (a : Arguments) (name : String) : Except Refusal Arguments :=
  match name with
  | "sets" => if a.sets then .error .usage else .ok { a with sets := true }
  | "table" => if a.table then .error .usage else .ok { a with table := true }
  | "no-step-limit" =>
    if a.noStepLimit then .error .usage else .ok { a with noStepLimit := true }
  | "help" => .error .help
  | "version" => .error .version
  | _ => .error .usage

/-- Take short options. The first one decides, as each of them ends the reading. -/
def addShort (name : List Char) : Except Refusal Arguments :=
  match name with
  | 'h' :: _ => .error .help
  | 'V' :: _ => .error .version
  | _ => .error .usage

/-! ## All arguments -/

/-- Whether an argument can be the value of an option that stands before it. -/
def isValue (text : String) : Bool := text == "-" || !text.startsWith "-"

/-- Read the arguments that are left. -/
def readAll (a : Arguments) : List String → Except Refusal Arguments
  | [] => .ok a
  | text :: rest =>
    match text.toList with
    | ['-', '-'] => rest.foldlM addPositional a
    | '-' :: '-' :: name =>
      match Text.cutAt? ['='] name with
      | some (name, value) => do
        (← a.addOption (String.ofList name) (String.ofList value)).readAll rest
      | none =>
        let name := String.ofList name
        if valueOptions.contains name then
          match rest with
          | value :: rest =>
            if isValue value then do (← a.addOption name value).readAll rest else .error .usage
          | [] => .error .usage
        else do (← a.addFlag name).readAll rest
    | ['-'] => do (← a.addPositional text).readAll rest
    | '-' :: name => addShort name
    | _ => do (← a.addPositional text).readAll rest

/-- The request that the arguments make up, if they go together. -/
def toRequest (a : Arguments) : Except Refusal Request :=
  if a.input?.isSome && a.inputFile?.isSome || a.noStepLimit && a.maxSteps?.isSome then
    .error .usage
  else
    let input := match a.input?, a.inputFile?, a.sample? with
      | some text, _, _ => .given text
      | none, some path, _ => .file path
      | none, none, some s => .sample s
      | none, none, none => .missing
    let options : RunOptions :=
      if a.noStepLimit then .unlimited
      else match a.maxSteps? with
        | none => {}
        | some n => ⟨some n⟩
    match a.grammar?, a.sample? with
    | some path, none => .ok ⟨.file path, input, a.sets, a.table, options⟩
    | none, some s => .ok ⟨.sample s, input, a.sets, a.table, options⟩
    | _, _ => .error .usage

end Arguments

/-- Read the arguments of a command line. -/
def Request.ofArguments (texts : List String) : Except Refusal Request := do
  (← Arguments.readAll {} texts).toRequest

end Predictive.CommandLine
