-- SUMMARY: Records of parse runs.
import Predictive.Parse.Action

namespace Predictive

/-- What a parser has before it: its stack, topmost symbol first, and the rest of its input. -/
structure Config where
  stack : List Symbol
  input : List Symbol
deriving DecidableEq, Repr

/-- An action and the configuration in which it is taken. -/
structure Step where
  config : Config
  action : Action
deriving DecidableEq, Repr

/-- The steps of a run in order, and how it ended. -/
structure Trace where
  steps : List Step
  status : RunStatus
deriving DecidableEq, Repr

namespace Step

/-- The stack from its bottom to its top. -/
def stackUpward (s : Step) : List Symbol := s.config.stack.reverse

def matched? (s : Step) : Option Symbol :=
  match s.action with
  | .matchTop x => some x
  | _ => none

end Step

namespace Trace

def isAccepted (t : Trace) : Bool := t.status == .accepted

/-- The terminals matched during the run, in order. -/
def matched (t : Trace) : List Symbol := t.steps.filterMap Step.matched?

/-- Whether the run recovered from any error. -/
def hasErrors (t : Trace) : Bool := t.steps.any fun s => s.action.isRecovery

def actions (t : Trace) : List Action := t.steps.map Step.action

/-- The trace of a run that took one more step before. -/
def prepend (s : Step) (t : Trace) : Trace := { t with steps := s :: t.steps }

end Trace

end Predictive
