-- SUMMARY: Files as a value: why one cannot be read, and how a path leads to one.
import Predictive.Text.Split

/-!
# File trees

A file tree lists folders and files by their locations. A path is walked name by name, from the root
if a slash stands first and from the working folder otherwise. Each step of a walk needs a folder to
start from: an empty name or a dot stays there, two dots lead to the folder around it, and any other
name leads into it. Whether something is there shows only when the next step is taken or the walk is
over.
-/

namespace Predictive.CommandLine

/-- Why a file cannot be read. -/
inductive ReadError where
  | notFound
  | permissionDenied
  | notDirectory
  | isDirectory
  | nameTooLong
  | notUtf8
  | other (message : String)
deriving DecidableEq, Repr

def ReadError.message : ReadError → String
  | .notFound => "No such file or directory (os error 2)"
  | .permissionDenied => "Permission denied (os error 13)"
  | .notDirectory => "Not a directory (os error 20)"
  | .isDirectory => "Is a directory (os error 21)"
  | .nameTooLong => "File name too long (os error 36)"
  | .notUtf8 => "stream did not contain valid UTF-8"
  | .other message => message

/-- The text that a file holds. -/
def textOfBytes (bytes : ByteArray) : Except ReadError String :=
  match String.fromUTF8? bytes with
  | some text => .ok text
  | none => .error .notUtf8

/-- The names on the way from the root, the last one first. -/
abbrev Location := List String

inductive FileEntry where
  | folder
  | file (content : ByteArray)

structure FileTree where
  entries : List (Location × FileEntry)
  working : Location

namespace FileTree

/-! ## Walking a path -/

/-- The bytes that one name in a path may have. -/
def maxNameBytes : Nat := 255

/-- The bytes that a whole path may have. -/
def maxPathBytes : Nat := 4095

/-- What is at a location. The root is always a folder. -/
def entry? (t : FileTree) (here : Location) : Option FileEntry :=
  if here.isEmpty then some .folder else t.entries.lookup here

/-- Where a name leads. -/
def enter (t : FileTree) (here : Location) (name : String) : Except ReadError Location :=
  match t.entry? here with
  | none => .error .notFound
  | some (.file _) => .error .notDirectory
  | some .folder =>
    if name = "" ∨ name = "." then .ok here
    else if name = ".." then .ok here.tail
    else if maxNameBytes < name.utf8ByteSize then .error .nameTooLong
    else .ok (name :: here)

/-- Where a path leads. -/
def locate (t : FileTree) (path : String) : Except ReadError Location :=
  if path.isEmpty then .error .notFound
  else if maxPathBytes < path.utf8ByteSize then .error .nameTooLong
  else
    ((Text.pieces (· == '/') path.toList).map String.ofList).foldlM t.enter
      (if path.startsWith "/" then [] else t.working)

/-! ## Reading a file -/

/-- The text of the file at the end of a path. -/
def read (t : FileTree) (path : String) : Except ReadError String := do
  match t.entry? (← t.locate path) with
  | none => .error .notFound
  | some .folder => .error .isDirectory
  | some (.file content) => textOfBytes content

end FileTree

end Predictive.CommandLine
