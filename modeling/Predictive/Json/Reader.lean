-- SUMMARY: Reading JSON documents.
import Predictive.Json.Basic

/-!
# Reading JSON

Each reader takes the text that is left and returns a value together with the text after it.
-/

namespace Predictive.Json

/-- The blanks that may stand between the parts of a document. -/
def isSpace (c : Char) : Bool :=
  c == ' ' || c == '\t' || c == '\n' || c == '\r'

def skipSpace (cs : List Char) : List Char := cs.dropWhile isSpace

/-! ## Numbers -/

/-- The digits at the beginning of a text. There must be one. -/
def takeDigits? (cs : List Char) : Option (List Char × List Char) :=
  match cs.span Char.isDigit with
  | ([], _) => none
  | (digits, rest) => some (digits, rest)

/-- The text after a fractional part, and whether there is one. -/
def skipFraction? : List Char → Option (Bool × List Char)
  | '.' :: cs => (takeDigits? cs).map fun (_, rest) => (true, rest)
  | cs => some (false, cs)

def skipSign : List Char → List Char
  | '+' :: cs => cs
  | '-' :: cs => cs
  | cs => cs

/-- The text after an exponent, and whether there is one. -/
def skipExponent? : List Char → Option (Bool × List Char)
  | 'e' :: cs => (takeDigits? (skipSign cs)).map fun (_, rest) => (true, rest)
  | 'E' :: cs => (takeDigits? (skipSign cs)).map fun (_, rest) => (true, rest)
  | cs => some (false, cs)

/-- A number without its sign. A zero at the beginning stands alone. -/
def readUnsigned? (cs : List Char) : Option (Json × List Char) := do
  let (digits, rest) ← takeDigits? cs
  if digits.head? = some '0' ∧ digits.length ≠ 1 then none
  else
    let (hasFraction, rest) ← skipFraction? rest
    let (hasExponent, rest) ← skipExponent? rest
    if hasFraction || hasExponent then some (.otherNumber, rest)
    else some (.natural (Nat.ofDigitChars 10 digits 0), rest)

/-! ## Strings -/

/-- A part of a written string: a character, or a UTF-16 unit written as an escape. -/
inductive Piece where
  | char (c : Char)
  | unit (code : Nat)
deriving DecidableEq, Repr

def hexDigit? (c : Char) : Option Nat :=
  if '0' ≤ c ∧ c ≤ '9' then some (c.toNat - '0'.toNat)
  else if 'a' ≤ c ∧ c ≤ 'f' then some (c.toNat - 'a'.toNat + 10)
  else if 'A' ≤ c ∧ c ≤ 'F' then some (c.toNat - 'A'.toNat + 10)
  else none

/-- The number that four hexadecimal digits write. -/
def hexCode? (a b c d : Char) : Option Nat := do
  let a ← hexDigit? a
  let b ← hexDigit? b
  let c ← hexDigit? c
  let d ← hexDigit? d
  some (((a * 16 + b) * 16 + c) * 16 + d)

/-- The character that a short escape stands for. -/
def shortEscape? : Char → Option Char
  | '"' => some '"'
  | '\\' => some '\\'
  | '/' => some '/'
  | 'b' => some '\x08'
  | 'f' => some '\x0c'
  | 'n' => some '\n'
  | 'r' => some '\r'
  | 't' => some '\t'
  | _ => none

/-- The pieces up to the closing quote. Control characters must be escaped. -/
def readPieces? : List Char → Option (List Piece × List Char)
  | [] => none
  | '"' :: rest => some ([], rest)
  | '\\' :: 'u' :: a :: b :: c :: d :: rest =>
    match hexCode? a b c d, readPieces? rest with
    | some code, some (pieces, rest) => some (.unit code :: pieces, rest)
    | _, _ => none
  | '\\' :: e :: rest =>
    match shortEscape? e, readPieces? rest with
    | some c, some (pieces, rest) => some (.char c :: pieces, rest)
    | _, _ => none
  | c :: rest =>
    if c.toNat < 0x20 ∨ c = '\\' then none
    else (readPieces? rest).map fun (pieces, rest) => (.char c :: pieces, rest)

/-- Whether a UTF-16 unit is the first half of a surrogate pair. -/
def isHighSurrogate (code : Nat) : Bool := 0xd800 ≤ code && code < 0xdc00

/-- Whether a UTF-16 unit is the second half of a surrogate pair. -/
def isLowSurrogate (code : Nat) : Bool := 0xdc00 ≤ code && code < 0xe000

/-- The text that pieces make up, if every surrogate has its other half right beside it. -/
def assemble? : List Piece → Option (List Char)
  | [] => some []
  | .char c :: rest => (assemble? rest).map (c :: ·)
  | .unit high :: .unit low :: rest =>
    if isHighSurrogate high then
      if isLowSurrogate low then
        let code := 0x10000 + (high - 0xd800) * 0x400 + (low - 0xdc00)
        (assemble? rest).map (Char.ofNat code :: ·)
      else none
    else if isLowSurrogate high then none
    else (assemble? (.unit low :: rest)).map (Char.ofNat high :: ·)
  | .unit code :: rest =>
    if isHighSurrogate code || isLowSurrogate code then none
    else (assemble? rest).map (Char.ofNat code :: ·)

/-- A string after its opening quote. -/
def readText? (cs : List Char) : Option (Option String × List Char) :=
  (readPieces? cs).map fun (pieces, rest) => ((assemble? pieces).map String.ofList, rest)

/-! ## Values -/

/-- The text after a given beginning. -/
def expect? : List Char → List Char → Option (List Char)
  | [], cs => some cs
  | c :: word, d :: cs => if c = d then expect? word cs else none
  | _ :: _, [] => none

mutual

/-- One value, after blanks. -/
def readValue? : Nat → List Char → Option (Json × List Char)
  | 0, _ => none
  | fuel + 1, cs =>
    match skipSpace cs with
    | 'n' :: cs => (expect? "ull".toList cs).map fun rest => (.null, rest)
    | 't' :: cs => (expect? "rue".toList cs).map fun rest => (.bool true, rest)
    | 'f' :: cs => (expect? "alse".toList cs).map fun rest => (.bool false, rest)
    | '"' :: cs => (readText? cs).map fun (text?, rest) => (.string text?, rest)
    | '-' :: cs => (readUnsigned? cs).map fun (_, rest) => (.otherNumber, rest)
    | '[' :: cs =>
      match skipSpace cs with
      | ']' :: rest => some (.array [], rest)
      | cs => (readItems? fuel cs).map fun (items, rest) => (.array items, rest)
    | '{' :: cs =>
      match skipSpace cs with
      | '}' :: rest => some (.object [], rest)
      | cs => (readMembers? fuel cs).map fun (members, rest) => (.object members, rest)
    | cs => readUnsigned? cs

/-- The items of an array that is not empty, and its closing bracket. -/
def readItems? : Nat → List Char → Option (List Json × List Char)
  | 0, _ => none
  | fuel + 1, cs =>
    match readValue? fuel cs with
    | none => none
    | some (item, cs) =>
      match skipSpace cs with
      | ']' :: rest => some ([item], rest)
      | ',' :: cs => (readItems? fuel cs).map fun (items, rest) => (item :: items, rest)
      | _ => none

/-- The members of an object that is not empty, and its closing brace. -/
def readMembers? : Nat → List Char → Option (List (Option String × Json) × List Char)
  | 0, _ => none
  | fuel + 1, cs =>
    match expect? ['"'] (skipSpace cs) with
    | none => none
    | some cs =>
      match readText? cs with
      | none => none
      | some (key, cs) =>
        match expect? [':'] (skipSpace cs) with
        | none => none
        | some cs =>
          match readValue? fuel cs with
          | none => none
          | some (value, cs) =>
            match skipSpace cs with
            | '}' :: rest => some ([(key, value)], rest)
            | ',' :: cs =>
              (readMembers? fuel cs).map fun (members, rest) => ((key, value) :: members, rest)
            | _ => none

end

/-- Read a document, which holds one value and nothing else. Every two steps take a character, so
    the text bounds their number. -/
def parse? (document : String) : Option Json :=
  let cs := document.toList
  match readValue? (2 * cs.length + 2) cs with
  | some (j, rest) => if (skipSpace rest).isEmpty then some j else none
  | none => none

end Predictive.Json
