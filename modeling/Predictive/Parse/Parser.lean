-- SUMMARY: The predictive parser: a stack machine that a parse table drives, and that recovers from errors.
import Predictive.Parse.Trace
import Predictive.ParseTable

/-!
# Parsers

The parser begins with the start symbol on its stack, above `$`, and ends its input with `$`. In
each step it looks at the top of the stack and at the next input symbol, decides on an action,
records it, and applies it. Most errors do not end the run: the input symbol is discarded, or the
nonterminal on the stack is dropped, as the table says. Since `$` cannot be discarded, an attempt to
do so ends the run one step later. A run ends at once where the top of the stack is `$`, where the
grammar does not know it, and where the table has no usable cell for it.

Some tables keep the parser running forever, so every run has a bound. Without a step limit the
bound is `RunOptions.patience`, which no run of practical length meets.
-/

namespace Predictive

structure RunOptions where
  /-- The largest number of steps between the initial one and the rejection that cuts a longer run
      off. -/
  stepLimit? : Option Nat := some 10000
deriving DecidableEq, Repr

namespace RunOptions

def unlimited : RunOptions := ⟨none⟩

/-- How many steps a run without a step limit may take before it is left running. -/
def patience : Nat := UInt64.size

/-- The number of steps after which a run is left alone. A run with a step limit ends before. -/
def fuel (o : RunOptions) : Nat :=
  match o.stepLimit? with
  | none => patience
  | some limit => limit + 1

/-- Whether a run that took so many steps may take no other one. -/
def exhausted (o : RunOptions) (taken : Nat) : Bool :=
  match o.stepLimit? with
  | none => false
  | some limit => limit ≤ taken

end RunOptions

/-- A configuration of the parser, and whether the last step was an error at the end of input. -/
structure Machine where
  config : Config
  stuck : Bool
deriving DecidableEq, Repr

namespace Machine

/-- The machine before its first step. -/
def init (start : Symbol) (tokens : List Symbol) : Machine where
  config := ⟨[start, Grammar.endOfInput], tokens ++ [Grammar.endOfInput]⟩
  stuck := false

def top (m : Machine) : Symbol := m.config.stack.headD Grammar.endOfInput

def lookahead (m : Machine) : Symbol := m.config.input.headD Grammar.endOfInput

def pop (m : Machine) : Machine :=
  { m with config := { m.config with stack := m.config.stack.tail } }

def push (m : Machine) (xs : List Symbol) : Machine :=
  { m with config := { m.config with stack := xs ++ m.config.stack } }

def consume (m : Machine) : Machine :=
  { m with config := { m.config with input := m.config.input.tail } }

/-- Discard the next input symbol. The end of input stays, and the machine is stuck. -/
def discard (m : Machine) : Machine :=
  if m.lookahead = Grammar.endOfInput then { m with stuck := true } else m.consume

end Machine

structure Parser where
  grammar : Grammar
  table : ParseTable
  options : RunOptions
deriving DecidableEq

namespace Parser

/-- A parser with the table of its grammar. -/
def ofGrammar (g : Grammar) (options : RunOptions) : Parser :=
  ⟨g, .ofGrammar g, options⟩

/-- The action for a nonterminal on top of the stack. -/
def consult (p : Parser) (a lookahead : Symbol) : Action :=
  match p.table.get? a lookahead with
  | some (.rule r) => if (p.grammar.rule? r).isSome then .expand r else .reject .noRule
  | some .extract => .extract a lookahead
  | some .explore => .explore a lookahead
  | none => .reject .noRule

/-- The action for the top of the stack and the next input symbol. -/
def decide (p : Parser) (top lookahead : Symbol) : Action :=
  if top = Grammar.endOfInput then
    if lookahead = Grammar.endOfInput then .accept else .reject .unexpectedEnd
  else if p.grammar.isTerminal top then
    if top = lookahead then .matchTop top else .mismatch top lookahead
  else if p.grammar.isNonterminal top then p.consult top lookahead
  else .reject .unknownSymbol

/-- The action of a machine that took so many steps. -/
def next (p : Parser) (taken : Nat) (m : Machine) : Action :=
  if p.options.exhausted taken then .reject .stepLimit
  else if m.stuck then .reject .inputExhausted
  else p.decide m.top m.lookahead

/-- What an action does to the machine. -/
def apply (p : Parser) (m : Machine) : Action → Machine
  | .init | .accept | .reject _ => m
  | .matchTop _ => m.pop.consume
  | .mismatch _ _ | .explore _ _ => m.discard
  | .extract _ _ => m.pop
  | .expand r =>
    match p.grammar.rule? r with
    | none => m.pop
    | some rule => m.pop.push rule.rhs

/-- Run a machine that took so many steps for `fuel` more. -/
def run (p : Parser) : Nat → Nat → Machine → Trace
  | 0, _, _ => ⟨[], .running⟩
  | fuel + 1, taken, m =>
    let action := p.next taken m
    match action.outcome? with
    | some status => ⟨[⟨m.config, action⟩], status⟩
    | none => (run p fuel (taken + 1) (p.apply m action)).prepend ⟨m.config, action⟩

/-- Parse with at most `fuel` steps after the initial one. -/
def parseWithin (p : Parser) (fuel : Nat) (tokens : List Symbol) : Trace :=
  let m := Machine.init p.grammar.start tokens
  (p.run fuel 0 m).prepend ⟨m.config, .init⟩

/-- Parse a list of symbols and record every step. -/
def parse (p : Parser) (tokens : List Symbol) : Trace :=
  p.parseWithin p.options.fuel tokens

end Parser

end Predictive
