-- SUMMARY: Types with a JSON form, and the two shapes that forms have: records and variants.
import Predictive.Json.Reader

/-!
# JSON forms

A record is written as an object with a member for each field; an array of the fields in order reads
as well. A variant is written as its name, or as an object that maps its name to its content. A name
alone reads only for a variant without content, and so does the name with `null`.
-/

namespace Predictive

/-- A type whose values are written as JSON and read back. -/
class JsonForm (α : Type) where
  toJson : α → Json
  ofJson? : Json → Option α

namespace JsonForm

/-- Read a document. -/
def ofDocument? {α : Type} [JsonForm α] (document : String) : Option α :=
  (Json.parse? document).bind ofJson?

/-- Write a document. -/
def toDocument {α : Type} [JsonForm α] (a : α) : String := (toJson a).render

instance {α : Type} [JsonForm α] : JsonForm (List α) where
  toJson as := .array (as.map toJson)
  ofJson?
    | .array items => items.mapM ofJson?
    | _ => none

end JsonForm

namespace Json

/-! ## Records -/

/-- The values of the named fields of a record. Fields may be missing. Members with other keys mean
    nothing, but every key must be readable, and no field may occur twice. -/
def fields? (names : List String) : Json → Option (List (Option Json))
  | .array items =>
    if items.length ≤ names.length then some ((List.range names.length).map fun i => items[i]?)
    else none
  | .object members =>
    if members.all (fun (key, _) => key.isSome)
        && names.all (fun name => members.countP (fun (key, _) => key == some name) ≤ 1) then
      some (names.map fun name => (members.find? fun (key, _) => key == some name).map Prod.snd)
    else none
  | _ => none

/-- The values of a record with one field. -/
def field? (name : String) (j : Json) : Option Json :=
  match j.fields? [name] with
  | some [some a] => some a
  | _ => none

/-- The values of a record with two fields. -/
def twoFields? (first second : String) (j : Json) : Option (Json × Json) :=
  match j.fields? [first, second] with
  | some [some a, some b] => some (a, b)
  | _ => none

/-- The values of a record with three fields. -/
def threeFields? (first second third : String) (j : Json) : Option (Json × Json × Json) :=
  match j.fields? [first, second, third] with
  | some [some a, some b, some c] => some (a, b, c)
  | _ => none

/-! ## Variants -/

/-- The written form of a variant with content. -/
def variant (name : String) (content : Json) : Json := record [(name, content)]

/-- The name of a variant and its content. A name alone has none. -/
def variant? : Json → Option (String × Option Json)
  | .string (some name) => some (name, none)
  | .object [(some name, content)] => some (name, some content)
  | _ => none

/-- The name of a variant without content. -/
def unitVariant? (j : Json) : Option String :=
  match j.variant? with
  | some (name, none) => some name
  | some (name, some .null) => some name
  | _ => none

/-- The name and the content of a variant with content. -/
def contentVariant? (j : Json) : Option (String × Json) :=
  match j.variant? with
  | some (name, some content) => some (name, content)
  | _ => none

end Json

end Predictive
