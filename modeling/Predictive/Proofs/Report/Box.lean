-- SUMMARY: The lines of a box are equally long, and every cell can be read off its line at the offset of its column.
import Mathlib.Algebra.GroupWithZero.Nat
import Mathlib.Algebra.Order.Group.Nat
import Mathlib.Data.List.Forall2
import Predictive.Proofs.Text.Inline
import Predictive.Report.Box

/-!
# Boxes

In a box with as many cells in each row as there are headers, no text is lost and nothing is out of
line. The columns are wide enough for all their cells, so every cell is padded to exactly the width
of its column. It follows that all lines have the same length, and that a column begins at the same
offset in each of them.
-/

namespace Predictive.Box

open Text (Inline inline_join)

/-! ## What a box shows -/

/-- Where a column begins. It has two characters of the frame on its left, and every column before
    it takes three characters more than its width. -/
def offset (widths : List Nat) (column : Nat) : Nat :=
  ((widths.take column).map (· + 3)).sum + 2

/-- The length of the lines. -/
def span (widths : List Nat) : Nat :=
  (widths.map (· + 3)).sum + 1

/-- Every cell stands in the line at the offset of its column, complete and with nothing but spaces
    behind it in the column. -/
def Shows (widths : List Nat) (line : String) (cells : List String) : Prop :=
  ∀ column cell, cells[column]? = some cell →
    ∃ width, widths[column]? = some width ∧ cell.length ≤ width ∧
      (line.toList.drop (offset widths column)).take width =
        cell.toList ++ List.replicate (width - cell.length) ' '

/-- The lines of a box with columns of these widths. -/
structure Drawn (headers : List String) (rows : List (List String)) (widths : List Nat)
    (lines : List String) : Prop where
  columns : widths.length = headers.length
  full : ∀ row ∈ rows, row.length = headers.length
  count : lines.length = rows.length + 4
  inline : ∀ line ∈ lines, Inline line
  flush : ∀ line ∈ lines, line.length = span widths
  header : ∃ line, lines[1]? = some line ∧ Shows widths line headers
  body : ∀ i row, rows[i]? = some row → ∃ line, lines[i + 3]? = some line ∧ Shows widths line row

/-- The text consists of the lines of a box, each of them ended by a line break. -/
def IsBox (text : String) (headers : List String) (rows : List (List String)) : Prop :=
  ∃ widths lines, text = String.join (lines.map fun line => line ++ "\n") ∧
    Drawn headers rows widths lines

/-! ## Widths -/

variable {headers cells : List String} {rows : List (List String)} {ws : List Nat}

/-- Every cell has a column that is wide enough for it. -/
abbrev Fits (cells : List String) (ws : List Nat) : Prop :=
  List.Forall₂ (fun cell width => cell.length ≤ width) cells ws

theorem le_foldl_max {α : Type} (f : α → Nat) (xs : List α) (init : Nat) :
    init ≤ xs.foldl (fun width x => max width (f x)) init ∧
      ∀ x ∈ xs, f x ≤ xs.foldl (fun width x => max width (f x)) init := by
  induction xs generalizing init with
  | nil => simp
  | cons x xs ih =>
    obtain ⟨hinit, hxs⟩ := ih (max init (f x))
    rw [List.foldl_cons, List.forall_mem_cons]
    exact ⟨by omega, by omega, hxs⟩

theorem length_widths (headers : List String) (rows : List (List String)) :
    (widths headers rows).length = headers.length := by
  simp [widths]

theorem fits_headers (headers : List String) (rows : List (List String)) :
    Fits headers (widths headers rows) := by
  refine List.forall₂_iff_get.2 ⟨(length_widths headers rows).symm, fun j hj hj' => ?_⟩
  simp only [widths, List.get_eq_getElem, List.getElem_map, List.getElem_zipIdx]
  exact (le_foldl_max _ rows _).1

theorem fits_row (hrow : cells ∈ rows) (hlen : cells.length = headers.length) :
    Fits cells (widths headers rows) := by
  refine List.forall₂_iff_get.2 ⟨hlen.trans (length_widths headers rows).symm, fun j hj hj' => ?_⟩
  have hle := (le_foldl_max (fun row : List String => (row[j]?.map String.length).getD 0) rows
    (headers.get ⟨j, hlen ▸ hj⟩).length).2 cells hrow
  simpa [widths, List.getElem?_eq_getElem hj] using hle

theorem fits_of_mem (hfull : ∀ row ∈ rows, row.length = headers.length)
    (h : cells ∈ headers :: rows) : Fits cells (widths headers rows) := by
  rcases List.mem_cons.1 h with rfl | hrow
  · exact fits_headers cells rows
  · exact fits_row hrow (hfull cells hrow)

/-! ## Lines -/

theorem toList_pad (width : Nat) (cell : String) :
    (pad width cell).toList = cell.toList ++ List.replicate (width - cell.length) ' ' := by
  simp [pad, stretch]

/-- A cell with the frame on its left and the space before the next frame. -/
def framed (width : Nat) (cell : String) : List Char :=
  '|' :: ' ' :: (pad width cell).toList ++ [' ']

theorem length_framed {width : Nat} {cell : String} (h : cell.length ≤ width) :
    (framed width cell).length = width + 3 := by
  have hpad : (pad width cell).toList.length = width := by
    rw [toList_pad, List.length_append, List.length_replicate, String.length_toList]
    omega
  rw [framed, List.length_append, List.length_cons, List.length_cons, hpad, List.length_singleton]

theorem toList_line_cons (cell : String) (cells : List String) (w : Nat) (ws : List Nat) :
    (line (w :: ws) (cell :: cells)).toList = framed w cell ++ (line ws cells).toList := by
  simp [line, framed, String.toList_join]

theorem length_line (h : Fits cells ws) : (line ws cells).length = span ws := by
  induction h with
  | nil => rfl
  | @cons cell w cells ws hfit _ ih =>
    rw [← String.length_toList, toList_line_cons, List.length_append, length_framed hfit,
      String.length_toList, ih]
    simp only [span, List.map_cons, List.sum_cons]
    omega

theorem length_separator (ws : List Nat) : (separator ws).length = span ws := by
  have hblock : ∀ w : Nat, ("+" ++ stretch '-' (w + 2)).length = w + 3 := by
    intro w
    simp only [stretch, String.length_append, String.length_ofList, List.length_replicate]
    exact Nat.add_comm 1 (w + 2)
  rw [separator, String.length_append, String.length_join, List.map_map]
  exact congrArg (fun ns => ns.sum + 1) (List.map_congr_left fun w _ => hblock w)

/-- The first column begins after two characters, and what is left of a line without its first
    column is the line of the other columns. -/
theorem shows_line (h : Fits cells ws) : Shows ws (line ws cells) cells := by
  induction h with
  | nil => simp [Shows]
  | @cons cell w cells ws hfit _ ih =>
    intro column
    cases column with
    | zero =>
      rintro _ ⟨⟩
      refine ⟨w, rfl, hfit, ?_⟩
      have hpad : (pad w cell).toList.length = w := by
        have hframed := length_framed hfit
        simpa [framed] using hframed
      rw [toList_line_cons, ← toList_pad]
      simp [offset, framed, hpad]
    | succ column =>
      intro cell' hcell
      obtain ⟨width, hwidth, hle, hshown⟩ := ih column cell' hcell
      refine ⟨width, hwidth, hle, ?_⟩
      have hoffset : offset (w :: ws) (column + 1) =
          (framed w cell).length + offset ws column := by
        simp [offset, length_framed hfit, Nat.add_assoc]
      rw [← hshown, toList_line_cons, hoffset, List.drop_length_add_append]

/-! ## Line breaks -/

theorem inline_stretch {c : Char} (h : Text.isBlank c = true → c = ' ') (n : Nat) :
    Inline (stretch c n) := by
  intro c' hc'
  rw [stretch, String.toList_ofList] at hc'
  exact (List.eq_of_mem_replicate hc') ▸ h

theorem inline_line (h : ∀ cell ∈ cells, Inline cell) (ws : List Nat) : Inline (line ws cells) := by
  have hbar : Inline "|" := by decide
  refine (inline_join ?_).append hbar
  intro text htext
  obtain ⟨⟨cell, width⟩, hmem, rfl⟩ := List.mem_map.1 htext
  have hcell : Inline cell := h cell (List.of_mem_zip hmem).1
  have hpad : Inline (pad width cell) := hcell.append (inline_stretch (fun _ => rfl) _)
  have hleft : Inline "| " := by decide
  have hright : Inline " " := by decide
  exact (hleft.append hpad).append hright

theorem inline_separator (ws : List Nat) : Inline (separator ws) := by
  have hcorner : Inline "+" := by decide
  refine (inline_join ?_).append hcorner
  intro text htext
  obtain ⟨width, -, rfl⟩ := List.mem_map.1 htext
  exact hcorner.append (inline_stretch (by decide) _)

/-! ## Boxes -/

theorem mem_lines {l : String} (h : l ∈ lines headers rows) :
    l = separator (widths headers rows) ∨
      ∃ cells ∈ headers :: rows, l = line (widths headers rows) cells := by
  simp only [lines, List.mem_append, List.mem_cons, List.mem_map, List.not_mem_nil, or_false] at h
  rcases h with ((rfl | rfl | rfl) | ⟨row, hrow, rfl⟩) | rfl
  · exact .inl rfl
  · exact .inr ⟨headers, List.mem_cons_self, rfl⟩
  · exact .inl rfl
  · exact .inr ⟨row, List.mem_cons_of_mem _ hrow, rfl⟩
  · exact .inl rfl

/-- A box with a cell in each column of each row shows all of them. -/
theorem isBox_draw (hfull : ∀ row ∈ rows, row.length = headers.length)
    (hinline : ∀ cells ∈ headers :: rows, ∀ cell ∈ cells, Inline cell) :
    IsBox (draw headers rows) headers rows := by
  refine ⟨widths headers rows, lines headers rows, rfl, ?_⟩
  constructor
  case columns => exact length_widths headers rows
  case full => exact hfull
  case count => simp [lines]
  case inline =>
    intro l hl
    obtain rfl | ⟨cells, hcells, rfl⟩ := mem_lines hl
    · exact inline_separator _
    · exact inline_line (hinline cells hcells) _
  case flush =>
    intro l hl
    obtain rfl | ⟨cells, hcells, rfl⟩ := mem_lines hl
    · exact length_separator _
    · exact length_line (fits_of_mem hfull hcells)
  case header => exact ⟨_, rfl, shows_line (fits_headers headers rows)⟩
  case body =>
    intro i row hrow
    have hmem : row ∈ rows := List.mem_of_getElem? hrow
    refine ⟨line (widths headers rows) row, ?_, shows_line (fits_row hmem (hfull row hmem))⟩
    obtain ⟨hlt, rfl⟩ := List.getElem?_eq_some_iff.1 hrow
    simp [lines, List.getElem?_append_left, hlt]

end Predictive.Box
