-- SUMMARY: The journal of an analysis: what each stage has to report about its work, in order.
import Predictive.Analysis

/-!
# Journals

Every stage of an analysis reports on its work. The entries are read off the data that the stages
leave behind, so the stages themselves do not write them.
-/

namespace Predictive

/-- How much an entry matters, the most severe first. -/
inductive Severity where
  | warn
  | debug
  | trace
deriving DecidableEq, Repr

def Severity.rank : Severity → Nat
  | .warn => 0
  | .debug => 1
  | .trace => 2

structure Entry where
  severity : Severity
  message : String
deriving DecidableEq, Repr

namespace Journal

/-! ## Notation -/

def symbolText (x : Symbol) : String := "Symbol \x7b n: " ++ toString (x.id + 1) ++ " \x7d"

def symbolsText (xs : List Symbol) : String :=
  "[" ++ String.intercalate ", " (xs.map symbolText) ++ "]"

def statusText : RunStatus → String
  | .running => "Running"
  | .accepted => "Accepted"
  | .rejected why => "Rejected(" ++ why.name ++ ")"

/-! ## Grammars -/

/-- A line reports why it is passed over, or the words it drops and its alternatives. -/
def ofLine (line : ListingLine) : List Entry :=
  let place := s!"line {line.number}: "
  match line.content with
  | .noArrow => [⟨.trace, place ++ "no arrow, skipping"⟩]
  | .invalidLhs text => [⟨.warn, place ++ s!"invalid left-hand side `{text}`, skipping"⟩]
  | .production p =>
    (p.alternatives.flatMap fun a =>
      a.dropped.map fun word => ⟨.warn, place ++ s!"dropping `{word}` inside `{a.text}`"⟩)
      ++ [⟨.trace, place ++ s!"{p.alternatives.length} alternatives"⟩]

def ofVisit (v : Visit) : Entry :=
  ⟨.trace, "visited " ++ symbolText v.symbol ++ ", next " ++ symbolsText v.next⟩

def ofBuild (g : Grammar) : Entry :=
  let nonterminals := g.nonterminals.length
  let terminals := g.terminalSet.count
  let rules := g.rules.size
  ⟨.debug,
    s!"built grammar with {nonterminals} nonterminals, {terminals} terminals and {rules} rules"⟩

def ofLoad (g : Grammar) (lines : Nat) : Entry :=
  let rules := g.rules.size
  let nonterminals := g.nonterminals.length
  ⟨.debug, s!"loaded {rules} rules for {nonterminals} nonterminals from {lines} lines"⟩

/-- Loading reports on every line, on the order of the nonterminals, and on the result. -/
def ofListing (lines : List ListingLine) : List Entry :=
  let b := Listing.builder (Listing.productions lines)
  lines.flatMap ofLine ++
    match b.build with
    | .error e => [⟨.debug, "cannot build the grammar: " ++ e.message⟩]
    | .ok g =>
      (b.graph.walk g.start).visits.toList.map ofVisit ++ [ofBuild g, ofLoad g lines.length]

/-! ## Input, sets and table -/

def ofLexeme (l : Lexeme) : Entry :=
  ⟨.trace, s!"token `{l.text}` at byte {l.offset}"⟩

/-- Every pass but the last one changed something. -/
def ofPasses (kind : String) (passes : Nat) : List Entry :=
  (List.range passes).map (fun i =>
    let number := i + 1
    let changed := if number < passes then "true" else "false"
    ⟨.trace, s!"{kind} pass {number}: changed = {changed}"⟩)
    ++ [⟨.debug, s!"{kind} sets converged after {passes} passes"⟩]

/-- A claim on a cell of a table reports the rule that it displaces, if there is one. -/
def ofClaim (g : Grammar) (t : ParseTable) (c : Claim) : Entry :=
  let slot := "(" ++ g.name c.slot.nonterminal ++ ", " ++ g.name c.slot.terminal ++ ")"
  let rule := g.displayRule c.rule
  match t.displaced? c with
  | some r => ⟨.warn, s!"conflict at {slot}: `{rule}` replaces `{g.displayRule r}`"⟩
  | none => ⟨.trace, s!"{slot} = {rule}"⟩

def ofClaims (g : Grammar) : ParseTable → List Claim → List Entry
  | _, [] => []
  | t, c :: cs => ofClaim g t c :: ofClaims g (t.place c) cs

def ofTable (a : Analysis) : List Entry :=
  let cells := a.table.cells.size
  ofClaims a.grammar (.blank a.grammar) (ParseTable.claims a.grammar a.first a.follow)
    ++ [⟨.debug, s!"built LL(1) table with {cells} cells, {a.table.overwritten} overwritten"⟩]

/-! ## Runs -/

def ofStep (g : Grammar) (s : Step) (number : Nat) : Entry :=
  let top := g.name (s.config.stack.headD Grammar.endOfInput)
  let lookahead := g.name (s.config.input.headD Grammar.endOfInput)
  ⟨.trace, s!"step {number}: top = {top}, lookahead = {lookahead}: {s.action.display g}"⟩

/-- The initial step is counted but not reported. -/
def ofTrace (g : Grammar) (t : Trace) : List Entry :=
  (t.steps.tail.zipIdx 1).map (fun (s, number) => ofStep g s number)
    ++ [⟨.debug, s!"parse finished after {t.steps.length} steps: {statusText t.status}"⟩]

/-! ## Analyses -/

def ofRun (a : Analysis) : List Entry :=
  let tokens := a.tokens.length
  let steps := a.trace.steps.length
  ofPasses "FIRST" (FirstSets.solve a.grammar).passes
    ++ ofPasses "FOLLOW" (FollowSets.solve a.grammar a.first).passes
    ++ ofTable a
    ++ ofTrace a.grammar a.trace
    ++ [⟨.debug, s!"analyzed {tokens} tokens in {steps} steps: {statusText a.trace.status}"⟩]

/-- Everything that the analysis of an input reports. It ends with the stage that fails. -/
def ofText (listing input : String) (options : RunOptions) : List Entry :=
  ofListing (Listing.read listing.toList) ++
    match Grammar.load listing with
    | .error _ => []
    | .ok g =>
      ((Vocabulary.ofGrammar g).scan input).lexemes.map ofLexeme ++
        match Analysis.ofText listing input options with
        | .error _ => []
        | .ok a => ofRun a

/-- The entries that are at least as severe as the given one. -/
def upTo (severity : Severity) (entries : List Entry) : List Entry :=
  entries.filter fun e => e.severity.rank ≤ severity.rank

end Journal

end Predictive
