-- SUMMARY: How rules and grammars are written.
import Predictive.Grammar.Basic

/-!
# Written grammars

A grammar is written with one line for each nonterminal, its alternatives separated by bars. This is
the notation that `Grammar/Listing.lean` reads.
-/

namespace Predictive.Grammar

/-- A right-hand side, with `ε` for an empty one. -/
def rhsText (g : Grammar) (rhs : List Symbol) : String :=
  if rhs.isEmpty then epsilonText else g.names rhs

/-- What stands for a rule that does not exist. -/
def missingRuleText (r : RuleId) : String := s!"<rule {r.index}>"

/-- The right-hand side of a numbered rule. -/
def displayRhs (g : Grammar) (r : RuleId) : String :=
  match g.rule? r with
  | none => missingRuleText r
  | some rule => g.rhsText rule.rhs

/-- A numbered rule, as in `A → x y`. -/
def displayRule (g : Grammar) (r : RuleId) : String :=
  match g.rule? r with
  | none => missingRuleText r
  | some rule => g.name rule.lhs ++ " → " ++ g.rhsText rule.rhs

/-- The line of one nonterminal, without its end. -/
def displayLine (g : Grammar) (lhs : Symbol) : String :=
  g.name lhs ++ " →" ++
    String.intercalate " |" ((g.rulesOf lhs).map fun (_, rule) => " " ++ g.rhsText rule.rhs)

def display (g : Grammar) : String :=
  String.join (g.nonterminals.map fun lhs => g.displayLine lhs ++ "\n")

end Predictive.Grammar
