-- SUMMARY: The order of nonterminals: a depth-first walk over the references between them.
import Predictive.Symbol.Bits

/-!
# Walks

Nonterminals are ordered by a depth-first walk from the start symbol. The walk keeps a stack of
nonterminals that wait for their visit. A visit puts the nonterminals that it finds on top, so that
the first one found is visited next; one that waits already keeps its place. What the walk never
reaches comes last.
-/

namespace Predictive

/-- What there is to walk over: the nonterminals in the order of their declaration, and for each
    symbol the symbols that its rules mention, in order and with repetitions. -/
structure RuleGraph where
  declared : List Symbol
  nonterminals : SymbolSet
  mentions : Symbol → List Symbol

/-- One visit: the symbol, and the nonterminals it put on the stack, topmost first. -/
structure Visit where
  symbol : Symbol
  next : List Symbol
deriving DecidableEq, Repr

structure Walk where
  /-- Symbols that wait for a visit, topmost first. -/
  stack : List Symbol
  /-- The symbols on the stack. -/
  waiting : SymbolSet
  visited : SymbolSet
  visits : Array Visit
deriving DecidableEq, Repr

namespace Walk

/-- Before the first visit. Only a nonterminal can be visited. -/
def init (graph : RuleGraph) (start : Symbol) : Walk :=
  if graph.nonterminals.contains start then
    ⟨[start], SymbolSet.empty.insert start, .empty, #[]⟩
  else
    ⟨[], .empty, .empty, #[]⟩

/-- The nonterminals among `mentions` that are neither visited nor waiting, each once. -/
def discover (w : Walk) (graph : RuleGraph) (mentions : List Symbol) : List Symbol :=
  (mentions.filter fun x =>
    graph.nonterminals.contains x && !w.visited.contains x && !w.waiting.contains x).eraseDups

/-- Take the topmost symbol off the stack and visit it, unless it was visited before. -/
def step (graph : RuleGraph) (w : Walk) : Walk :=
  match w.stack with
  | [] => w
  | x :: rest =>
    let w := { w with stack := rest, waiting := w.waiting.erase x }
    if w.visited.contains x then w
    else
      let w := { w with visited := w.visited.insert x }
      let next := w.discover graph (graph.mentions x)
      { w with
        stack := next ++ w.stack
        waiting := next.foldl SymbolSet.insert w.waiting
        visits := w.visits.push ⟨x, next⟩ }

/-- Take `n` steps. -/
def run (graph : RuleGraph) : Nat → Walk → Walk
  | 0, w => w
  | n + 1, w => run graph n (w.step graph)

end Walk

namespace RuleGraph

/-- The whole walk. A step visits one nonterminal for good, so there are no more steps than
    nonterminals. -/
def walk (graph : RuleGraph) (start : Symbol) : Walk :=
  (Walk.init graph start).run graph graph.declared.length

/-- The nonterminals that a walk visits, as it visits them, and then the rest as declared. -/
def order (graph : RuleGraph) (start : Symbol) : List Symbol :=
  let w := graph.walk start
  w.visits.toList.map Visit.symbol ++ graph.declared.filter fun x => !w.visited.contains x

end RuleGraph

end Predictive
