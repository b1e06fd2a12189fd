-- SUMMARY: Grammar listings: plain text with one production to a line, and the grammars they load as.
import Predictive.Text.Split
import Predictive.Grammar.Builder

/-!
# Listings

A listing writes one production to a line, as in `A → x y | ε`. The arrow is `→` or `->`, the empty
alternative `ε` or `epsilon`. Lines that hold no production are passed over. Every left-hand side is
a nonterminal, every other name a terminal, and symbols are numbered in the order in which their
names first appear.
-/

namespace Predictive

/-! ## Lines -/

/-- One alternative of a production. -/
structure Alternative where
  text : String
  names : List String
  /-- Words for the empty string that stand among other words and mean nothing there. -/
  dropped : List String
deriving DecidableEq, Repr

structure Production where
  lhs : String
  alternatives : List Alternative
deriving DecidableEq, Repr

/-- What a line that is not blank holds. -/
inductive LineContent where
  | noArrow
  | invalidLhs (text : String)
  | production (p : Production)
deriving DecidableEq, Repr

/-- A line that is not blank, with its number in the text. -/
structure ListingLine where
  number : Nat
  content : LineContent
deriving DecidableEq, Repr

namespace Listing

/-- The arrows, in the order in which they are looked for. -/
def arrows : List String := ["→", "->"]

/-- The words for the empty string. -/
def epsilons : List String := [epsilonText, "epsilon"]

def isEpsilon (name : String) : Bool := epsilons.contains name

/-- The trimmed text before the arrow of a line, and the text after it. -/
def splitArrow? (line : List Char) : Option (List Char × List Char) :=
  arrows.findSome? fun arrow =>
    (Text.cutAt? arrow.toList line).map fun (before, after) => (Text.trim before, after)

/-- Whether a text can name a nonterminal. -/
def isValidLhs (lhs : List Char) : Bool :=
  !lhs.isEmpty && !lhs.any Text.isBlank
    && String.ofList lhs != endOfInputName && !isEpsilon (String.ofList lhs)

/-- Read one alternative, which is trimmed and not empty. -/
def readAlternative (text : List Char) : Alternative :=
  if isEpsilon (String.ofList text) then ⟨String.ofList text, [], []⟩
  else
    let words := (Text.words text).map String.ofList
    ⟨String.ofList text, words.filter fun w => !isEpsilon w, words.filter isEpsilon⟩

/-- Read what stands right of the arrow. Empty alternatives are left out. -/
def readAlternatives (rhs : List Char) : List Alternative :=
  (((Text.pieces (· == '|') rhs).map Text.trim).filter fun text => !text.isEmpty).map
    readAlternative

/-- Read a line, which is trimmed and not empty. -/
def readLine (line : List Char) : LineContent :=
  match splitArrow? line with
  | none => .noArrow
  | some (lhs, rhs) =>
    if isValidLhs lhs then .production ⟨String.ofList lhs, readAlternatives rhs⟩
    else .invalidLhs (String.ofList lhs)

/-- The lines that are not blank. Lines are numbered from one. -/
def read (text : List Char) : List ListingLine :=
  (((Text.lines text).map Text.trim).zipIdx 1).filterMap fun (line, number) =>
    if line.isEmpty then none else some ⟨number, readLine line⟩

/-! ## Grammars -/

def productions (lines : List ListingLine) : List Production :=
  lines.filterMap fun line =>
    match line.content with
    | .production p => some p
    | _ => none

/-- The names of a production in the order in which they appear. -/
def mentions (p : Production) : List String :=
  p.lhs :: p.alternatives.flatMap Alternative.names

/-- The names that get a symbol, in the order of their first appearance. The end of input comes
    before all of them. -/
def names (ps : List Production) : List String :=
  (endOfInputName :: ps.flatMap mentions).eraseDups

/-- The symbol that stands for a name. -/
def symbol (names : List String) (name : String) : Symbol := ⟨names.idxOf name⟩

/-- Adding the rules of a production. -/
def productionStep (names : List String) (p : Production) : BuilderStep :=
  .addRules (symbol names p.lhs) (p.alternatives.map fun a => a.names.map (symbol names))

/-- The steps that build a grammar: create the symbols, then add the productions in order. Those of
    one nonterminal may be scattered over the text. -/
def steps (ps : List Production) : List BuilderStep :=
  let names := names ps
  names.tail.map (fun name => .createSymbol (some name)) ++ ps.map (productionStep names)

def builder (ps : List Production) : Builder := Builder.ofSteps (steps ps)

end Listing

/-- Why a listing loads as no grammar. -/
inductive LoadError where
  /-- None of the given number of lines holds a production. -/
  | malformed (lines : Nat)
deriving DecidableEq, Repr

def LoadError.message : LoadError → String
  | .malformed n => s!"malformed grammar: none of {n} non-blank lines holds a production"

/-- Load a grammar from a listing. The first left-hand side is the start symbol. -/
def Grammar.load (text : String) : Except LoadError Grammar :=
  let lines := Listing.read text.toList
  match (Listing.builder (Listing.productions lines)).build with
  | .error _ => .error (.malformed lines.length)
  | .ok g => .ok g

end Predictive
