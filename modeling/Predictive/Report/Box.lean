-- SUMMARY: Plain-text tables drawn with boxes.

/-!
# Boxes

A box is drawn with a line of headers and a line for each row, between separators. Columns are as
wide as their widest cell, counted in characters.
-/

namespace Predictive.Box

/-- The width of each column. Headers count, rows may be short. -/
def widths (headers : List String) (rows : List (List String)) : List Nat :=
  headers.zipIdx.map fun (header, column) =>
    rows.foldl (fun width row => max width ((row[column]?.map String.length).getD 0)) header.length

/-- A text that repeats one character. -/
def stretch (c : Char) (n : Nat) : String := String.ofList (List.replicate n c)

/-- A cell filled up with blanks on its right. -/
def pad (width : Nat) (cell : String) : String := cell ++ stretch ' ' (width - cell.length)

def separator (widths : List Nat) : String :=
  String.join (widths.map fun width => "+" ++ stretch '-' (width + 2)) ++ "+"

def line (widths : List Nat) (cells : List String) : String :=
  String.join ((cells.zip widths).map fun (cell, width) => "| " ++ pad width cell ++ " ") ++ "|"

/-- The lines of a box, without their ends. -/
def lines (headers : List String) (rows : List (List String)) : List String :=
  let ws := widths headers rows
  [separator ws, line ws headers, separator ws] ++ rows.map (line ws) ++ [separator ws]

def draw (headers : List String) (rows : List (List String)) : String :=
  String.join ((lines headers rows).map fun l => l ++ "\n")

end Predictive.Box
