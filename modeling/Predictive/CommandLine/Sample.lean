-- SUMMARY: Built-in grammars, each with an input that it accepts.

namespace Predictive

inductive Sample where
  /-- Lists of statements with arithmetic expressions. -/
  | statements
  /-- A function declaration. -/
  | functions
deriving DecidableEq, Repr

namespace Sample

/-- The sample that a number on the command line stands for. -/
def ofNumber? : String → Option Sample
  | "1" => some .statements
  | "2" => some .functions
  | _ => none

def listing : Sample → String
  | .statements => "P → SL
SL → S SL'
SL' → ; S SL'
SL' → ε
S → id = E
S → print ( E )
E → T E'
E' → + T E'
E' → - T E'
E' → ε
T → F T'
T' → * F T'
T' → ε
F → id
F → num
F → ( E )"
  | .functions => "F → fun id ( P ) \x7b B \x7d
P → id P'
P → ε
P' → , id P'
P' → ε
B → S B
B → ε
S → return E ;
E → id"

def input : Sample → String
  | .statements => "id = num + num ; print ( id + num )"
  | .functions => "fun id ( id , id ) \x7b return id ; \x7d"

end Sample

end Predictive
