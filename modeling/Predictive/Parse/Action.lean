-- SUMMARY: What a predictive parser does in one step, and how its runs end.
import Predictive.Grammar.Display

namespace Predictive

/-- Why a run stops without accepting. -/
inductive Rejection where
  /-- `$` is on top of the stack, and another symbol comes next in the input. -/
  | unexpectedEnd
  /-- The table has no usable cell for the nonterminal and the input terminal. -/
  | noRule
  /-- The top of the stack is neither a terminal nor a nonterminal. -/
  | unknownSymbol
  /-- The last step would have discarded the end of input. -/
  | inputExhausted
  /-- The run took as many steps as it may. -/
  | stepLimit
deriving DecidableEq, Repr

namespace Rejection

def all : List Rejection := [.unexpectedEnd, .noRule, .unknownSymbol, .inputExhausted, .stepLimit]

/-- The name under which archives and journals know a reason. -/
def name : Rejection → String
  | .unexpectedEnd => "UnexpectedEnd"
  | .noRule => "NoRule"
  | .unknownSymbol => "UnknownSymbol"
  | .inputExhausted => "InputExhausted"
  | .stepLimit => "StepLimit"

def ofName? (name : String) : Option Rejection := all.find? fun why => why.name == name

def message : Rejection → String
  | .unexpectedEnd => "unexpected end"
  | .noRule => "no rule"
  | .unknownSymbol => "unknown symbol"
  | .inputExhausted => "input exhausted"
  | .stepLimit => "step limit reached"

end Rejection

inductive RunStatus where
  | running
  /-- The run came to `$` on top of the stack and next in the input, perhaps after recovering from
      errors. The stack can hold more below this `$` if a right-hand side mentions it. -/
  | accepted
  | rejected (why : Rejection)
deriving DecidableEq, Repr

inductive Action where
  /-- Nothing is done yet. -/
  | init
  /-- `$` is on top of the stack and comes next in the input. -/
  | accept
  | reject (why : Rejection)
  /-- The terminal on top of the stack is taken off together with the same input terminal. -/
  | matchTop (terminal : Symbol)
  /-- An input symbol other than the terminal on top of the stack is discarded, unless it is `$`. -/
  | mismatch (expected found : Symbol)
  /-- The nonterminal on top of the stack is replaced by a right-hand side. -/
  | expand (rule : RuleId)
  /-- The nonterminal is dropped, since the lookahead may follow it. -/
  | extract (nonterminal lookahead : Symbol)
  /-- The nonterminal stays, and the input symbol is discarded, unless it is `$`. -/
  | explore (nonterminal lookahead : Symbol)
deriving DecidableEq, Repr

namespace Action

/-- Whether the action recovers from an error. -/
def isRecovery : Action → Bool
  | .mismatch _ _ | .extract _ _ | .explore _ _ => true
  | _ => false

/-- How a run ends with this action, if it does. -/
def outcome? : Action → Option RunStatus
  | .accept => some .accepted
  | .reject why => some (.rejected why)
  | _ => none

/-- An action written with the names of a grammar. -/
def display (g : Grammar) : Action → String
  | .init => "init"
  | .accept => "accept"
  | .reject why => "reject: " ++ why.message
  | .matchTop x => "match " ++ g.name x
  | .mismatch expected found =>
    "error: expected " ++ g.name expected ++ ", found " ++ g.name found ++ " (explore)"
  | .expand r => g.displayRule r
  | .extract a x => "extract " ++ g.name a ++ " (" ++ g.name x ++ " ∈ FOLLOW(" ++ g.name a ++ "))"
  | .explore _ x => "explore: discard " ++ g.name x

end Action

end Predictive
