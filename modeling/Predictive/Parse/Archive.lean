-- SUMMARY: The JSON forms of symbols, table cells, actions, traces and options.
import Predictive.Json.Form
import Predictive.Parse.Parser

/-!
# Archived runs

Symbols are written by ID, off by one, so that zero is no symbol. Numbers that do not fit into a
machine word are refused.
-/

namespace Predictive

open JsonForm

/-- One more than the largest number that an archive holds. -/
def wordBound : Nat := UInt64.size

/-! ## Symbols, rules and cells -/

instance : JsonForm Symbol where
  toJson x := .record [("n", .natural (x.id + 1))]
  ofJson? j :=
    match j.field? "n" with
    | some (.natural (id + 1)) => if id < Symbol.bound then some ⟨id⟩ else none
    | _ => none

instance : JsonForm RuleId where
  toJson r := .natural r.index
  ofJson?
    | .natural n => if n < wordBound then some ⟨n⟩ else none
    | _ => none

instance : JsonForm Cell where
  toJson
    | .rule r => .variant "Rule" (toJson r)
    | .extract => .text "Extract"
    | .explore => .text "Explore"
  ofJson? j :=
    match j.unitVariant? with
    | some "Extract" => some .extract
    | some "Explore" => some .explore
    | _ =>
      match j.contentVariant? with
      | some ("Rule", content) => (ofJson? content).map .rule
      | _ => none

/-! ## Actions -/

instance : JsonForm Rejection where
  toJson why := .text why.name
  ofJson? j := j.unitVariant?.bind Rejection.ofName?

instance : JsonForm RunStatus where
  toJson
    | .running => .text "Running"
    | .accepted => .text "Accepted"
    | .rejected why => .variant "Rejected" (toJson why)
  ofJson? j :=
    match j.unitVariant? with
    | some "Running" => some .running
    | some "Accepted" => some .accepted
    | _ =>
      match j.contentVariant? with
      | some ("Rejected", content) => (ofJson? content).map .rejected
      | _ => none

/-- The form of two symbols under the given names. -/
def symbolPair (first second : String) (x y : Symbol) : Json :=
  .record [(first, toJson x), (second, toJson y)]

def symbolPair? (first second : String) (j : Json) : Option (Symbol × Symbol) := do
  let (x, y) ← j.twoFields? first second
  some (← ofJson? x, ← ofJson? y)

instance : JsonForm Action where
  toJson
    | .init => .text "Init"
    | .accept => .text "Accept"
    | .reject why => .variant "Reject" (toJson why)
    | .matchTop x => .variant "Match" (toJson x)
    | .mismatch x y => .variant "Mismatch" (symbolPair "expected" "found" x y)
    | .expand r => .variant "Expand" (toJson r)
    | .extract a x => .variant "Extract" (symbolPair "nonterminal" "lookahead" a x)
    | .explore a x => .variant "Explore" (symbolPair "nonterminal" "lookahead" a x)
  ofJson? j :=
    match j.unitVariant? with
    | some "Init" => some .init
    | some "Accept" => some .accept
    | _ =>
      match j.contentVariant? with
      | some ("Reject", content) => (ofJson? content).map .reject
      | some ("Match", content) => (ofJson? content).map .matchTop
      | some ("Mismatch", content) =>
        (symbolPair? "expected" "found" content).map fun (x, y) => .mismatch x y
      | some ("Expand", content) => (ofJson? content).map .expand
      | some ("Extract", content) =>
        (symbolPair? "nonterminal" "lookahead" content).map fun (a, x) => .extract a x
      | some ("Explore", content) =>
        (symbolPair? "nonterminal" "lookahead" content).map fun (a, x) => .explore a x
      | _ => none

/-! ## Runs -/

/-- The stack of a step is written from its bottom to its top. -/
instance : JsonForm Step where
  toJson s := .record
    [("stack", toJson s.stackUpward), ("input", toJson s.config.input), ("action", toJson s.action)]
  ofJson? j := do
    let (stack, input, action) ← j.threeFields? "stack" "input" "action"
    let stack : List Symbol ← ofJson? stack
    some ⟨⟨stack.reverse, ← ofJson? input⟩, ← ofJson? action⟩

instance : JsonForm Trace where
  toJson t := .record [("steps", toJson t.steps), ("status", toJson t.status)]
  ofJson? j := do
    let (steps, status) ← j.twoFields? "steps" "status"
    some ⟨← ofJson? steps, ← ofJson? status⟩

/-- Options without a limit given have the default one; `null` stands for no limit. -/
instance : JsonForm RunOptions where
  toJson o := .record
    [("step_limit", match o.stepLimit? with
      | none => .null
      | some limit => .natural limit)]
  ofJson? j :=
    match j.fields? ["step_limit"] with
    | some [none] => some {}
    | some [some .null] => some .unlimited
    | some [some (.natural limit)] => if limit < wordBound then some ⟨some limit⟩ else none
    | _ => none

end Predictive
