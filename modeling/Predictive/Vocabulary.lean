-- SUMMARY: Splitting raw input into the terminals of a grammar.
import Predictive.Text.Blank
import Predictive.Grammar.Basic

/-!
# Vocabularies

The vocabulary of a grammar maps the names of its terminals to the terminals. Input is scanned from
left to right: characters accumulate until they spell a name. A blank never belongs to a name, so a
text that is no name yet when a blank or the end comes is an error, as is one that no name begins
with.
-/

namespace Predictive

abbrev Vocabulary := Std.ExtTreeMap String Symbol

/-- A terminal found in the input, with the byte offset at which its name begins. -/
structure Lexeme where
  text : String
  offset : Nat
  terminal : Symbol
deriving DecidableEq, Repr

/-- A text in the input that spells no terminal. -/
structure LexError where
  text : String
  offset : Nat
deriving DecidableEq, Repr

def LexError.message (e : LexError) : String :=
  s!"unrecognized token `{e.text}` at byte {e.offset}"

/-- The terminals found, and the error that ended the scan, if any. -/
structure Scan where
  lexemes : List Lexeme
  error? : Option LexError
deriving DecidableEq, Repr

namespace Vocabulary

/-- The named terminals of a grammar but for the end of input. Of terminals with the same name the
    last one stands for it. -/
def ofGrammar (g : Grammar) : Vocabulary :=
  (g.terminals.filter (· != Grammar.endOfInput)).foldl
    (fun v x => match g.table.nameOf? x with
      | none => v
      | some name => v.insert name x)
    ∅

/-- Whether some name begins with `text`. All texts that do follow each other in the order of names,
    from `text` on, so the least name that is not below `text` decides. -/
def canExtend (v : Vocabulary) (text : String) : Bool :=
  match v.keys.find? fun name => (compare name text).isGE with
  | none => false
  | some name => text.toList.isPrefixOf name.toList

/-- The scan of `input`, where `pending` is the text that began at byte `begin` and is no name yet,
    and `offset` is the offset of the rest. -/
def scanFrom (v : Vocabulary) (pending : List Char) (begin offset : Nat) : List Char → Scan
  | [] => ⟨[], if pending.isEmpty then none else some ⟨String.ofList pending, begin⟩⟩
  | c :: cs =>
    let next := offset + c.utf8Size
    if Text.isBlank c then
      if pending.isEmpty then scanFrom v [] next next cs
      else ⟨[], some ⟨String.ofList pending, begin⟩⟩
    else
      let text := pending ++ [c]
      match v[String.ofList text]? with
      | some x =>
        let scan := scanFrom v [] next next cs
        { scan with lexemes := ⟨String.ofList text, begin, x⟩ :: scan.lexemes }
      | none =>
        if v.canExtend (String.ofList text) then scanFrom v text begin next cs
        else ⟨[], some ⟨String.ofList text, begin⟩⟩

def scan (v : Vocabulary) (input : String) : Scan :=
  v.scanFrom [] 0 0 input.toList

end Vocabulary

/-- Split `input` into terminals. The end of input is never among them. -/
def Grammar.tokenize (g : Grammar) (input : String) : Except LexError (List Symbol) :=
  let scan := (Vocabulary.ofGrammar g).scan input
  match scan.error? with
  | some e => .error e
  | none => .ok (scan.lexemes.map Lexeme.terminal)

end Predictive
