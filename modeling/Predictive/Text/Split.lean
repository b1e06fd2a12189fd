-- SUMMARY: Cutting text into pieces: at characters, into words, and at the first occurrence of a text.
import Predictive.Text.Blank

/-!
# Pieces of text

Text is cut as a list of characters. `pieces` keeps empty pieces, so that lines and alternatives
keep their places; `words` leaves them out.
-/

namespace Predictive.Text

/-- The pieces between the characters that satisfy `cut`. There is one more piece than there are
    cuts. -/
def pieces (cut : Char → Bool) : List Char → List (List Char)
  | [] => [[]]
  | c :: cs =>
    if cut c then [] :: pieces cut cs
    else
      match pieces cut cs with
      | [] => [[c]]
      | piece :: rest => (c :: piece) :: rest

/-- The text without the blanks at its ends. -/
def trim (cs : List Char) : List Char :=
  ((cs.dropWhile isBlank).reverse.dropWhile isBlank).reverse

/-- The longest stretches without a blank. -/
def words (cs : List Char) : List (List Char) :=
  (pieces isBlank cs).filter fun piece => !piece.isEmpty

def lines (cs : List Char) : List (List Char) :=
  pieces (· == '\n') cs

/-- The text before and after the first occurrence of `mark`. -/
def cutAt? (mark : List Char) : List Char → Option (List Char × List Char)
  | [] => if mark.isEmpty then some ([], []) else none
  | c :: cs =>
    if mark.isPrefixOf (c :: cs) then some ([], (c :: cs).drop mark.length)
    else (cutAt? mark cs).map fun (before, after) => (c :: before, after)

end Predictive.Text
