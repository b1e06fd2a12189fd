-- SUMMARY: JSON values, as far as archives need them, and how they are written.

/-!
# JSON values

Archives hold natural numbers and readable strings. The rest of what JSON can express is kept only
so far that a document that has it is still read: a number that is not a natural number, and a
string with half of a surrogate pair, are values of their own with nothing in them.
-/

namespace Predictive

inductive Json where
  | null
  | bool (b : Bool)
  | natural (n : Nat)
  | otherNumber
  /-- A string. It stands for no text if there is `none`. -/
  | string (text? : Option String)
  | array (items : List Json)
  | object (members : List (Option String × Json))
deriving Repr

namespace Json

/-- A string that stands for a text. -/
def text (s : String) : Json := .string (some s)

/-- An object whose keys are texts. -/
def record (fields : List (String × Json)) : Json :=
  .object (fields.map fun (key, value) => (some key, value))

/-! ## Writing -/

/-- A four-digit escape. -/
def escapeCode (n : Nat) : List Char :=
  let digit (k : Nat) : Char := Nat.digitChar (n / Nat.pow 16 k % 16)
  ['\\', 'u', digit 3, digit 2, digit 1, digit 0]

/-- A character inside a written string. -/
def writeChar (c : Char) : List Char :=
  if c = '"' then ['\\', '"']
  else if c = '\\' then ['\\', '\\']
  else if c.toNat < 0x20 then escapeCode c.toNat
  else [c]

/-- The written form of a string. One that stands for no text is written with a surrogate alone. -/
def writeString : Option String → List Char
  | some s => '"' :: (s.toList.flatMap writeChar ++ ['"'])
  | none => '"' :: (escapeCode 0xd800 ++ ['"'])

mutual

/-- The written form of a value, without blanks. -/
def write : Json → List Char
  | .null => "null".toList
  | .bool true => "true".toList
  | .bool false => "false".toList
  | .natural n => Nat.toDigits 10 n
  | .otherNumber => "-0".toList
  | .string s => writeString s
  | .array [] => "[]".toList
  | .array (item :: items) => '[' :: (write item ++ writeItems items)
  | .object [] => ['{', '}']
  | .object ((key, value) :: members) =>
    '{' :: (writeString key ++ ':' :: (write value ++ writeMembers members))

/-- The items after the first one, and the closing bracket. -/
def writeItems : List Json → List Char
  | [] => [']']
  | item :: items => ',' :: (write item ++ writeItems items)

/-- The members after the first one, and the closing brace. -/
def writeMembers : List (Option String × Json) → List Char
  | [] => ['}']
  | (key, value) :: members =>
    ',' :: (writeString key ++ ':' :: (write value ++ writeMembers members))

end

def render (j : Json) : String := String.ofList j.write

end Json

end Predictive
