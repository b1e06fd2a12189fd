-- SUMMARY: The tables that show an analysis are boxes in which no text is lost, and the parse table is complete and in order.
import Predictive.Proofs.Analysis
import Predictive.Proofs.Grammar.Names
import Predictive.Proofs.ParseTable
import Predictive.Proofs.Report.Box
import Predictive.Proofs.Text.Bytes
import Predictive.Report.Tables

/-!
# Tables

Whatever is shown of a grammar is made of the names of its symbols, of rule numbers and of fixed
texts. In a loaded grammar all names are words, so nothing that is shown breaks a line, and no rule
and no cell of the parse table is shown as blank.
-/

namespace Predictive

open Text (Inline Visible Unbroken bytes)

/-! ## What is shown of a grammar -/

section Shown

variable {g : Grammar} (h : ∀ x, Unbroken (g.name x))
include h

namespace Grammar

theorem inline_names (xs : List Symbol) : Inline (g.names xs) :=
  Text.inline_intercalate (by decide) (List.forall_mem_map.2 fun x _ => (h x).inline)

theorem inline_rhsText (rhs : List Symbol) : Inline (g.rhsText rhs) := by
  unfold rhsText
  split
  · decide
  · exact inline_names h rhs

theorem visible_rhsText (rhs : List Symbol) : Visible (g.rhsText rhs) := by
  cases rhs with
  | nil => exact (by decide : Visible epsilonText)
  | cons x rhs => exact Text.visible_intercalate (h x).visible " " (rhs.map g.name)

omit h in
theorem inline_missingRuleText (r : RuleId) : Inline (missingRuleText r) := by
  have hopen : Inline "<rule " := by decide
  have hclose : Inline ">" := by decide
  exact (hopen.append (Text.unbroken_toString r.index).inline).append hclose

theorem inline_displayRhs (r : RuleId) : Inline (g.displayRhs r) := by
  unfold displayRhs
  split
  · exact inline_missingRuleText r
  · exact inline_rhsText h _

theorem visible_displayRhs (r : RuleId) : Visible (g.displayRhs r) := by
  unfold displayRhs
  split
  · have hopen : Visible "<rule " := by decide
    exact (hopen.append _).append _
  · exact visible_rhsText h _

theorem inline_displayRule (r : RuleId) : Inline (g.displayRule r) := by
  unfold displayRule
  split
  · exact inline_missingRuleText r
  · next rule _ =>
    have harrow : Inline " → " := by decide
    exact ((h rule.lhs).inline.append harrow).append (inline_rhsText h rule.rhs)

end Grammar

theorem LookaheadSet.inline_display (s : LookaheadSet) : Inline (s.display g) := by
  unfold display
  split
  · decide
  · have hopen : Inline "\x7b " := by decide
    have hclose : Inline " \x7d" := by decide
    refine (hopen.append (Text.inline_intercalate (by decide) ?_)).append hclose
    rw [List.forall_mem_append]
    refine ⟨List.forall_mem_map.2 fun x _ => (h x).inline, ?_⟩
    cases s.hasEmpty <;> decide

omit h in
theorem Rejection.inline_message (why : Rejection) : Inline why.message := by
  cases why <;> decide

theorem Action.inline_display (action : Action) : Inline (action.display g) := by
  have hname : ∀ x, Inline (g.name x) := fun x => (h x).inline
  cases action with
  | init => exact (by decide : Inline "init")
  | accept => exact (by decide : Inline "accept")
  | reject why =>
    have hwhat : Inline "reject: " := by decide
    exact hwhat.append why.inline_message
  | matchTop x =>
    have hwhat : Inline "match " := by decide
    exact hwhat.append (hname x)
  | mismatch expected found =>
    have hwhat : Inline "error: expected " := by decide
    have hfound : Inline ", found " := by decide
    have hend : Inline " (explore)" := by decide
    exact (((hwhat.append (hname expected)).append hfound).append (hname found)).append hend
  | expand r => exact Grammar.inline_displayRule h r
  | extract a x =>
    have hwhat : Inline "extract " := by decide
    have hopen : Inline " (" := by decide
    have hfollow : Inline " ∈ FOLLOW(" := by decide
    have hend : Inline "))" := by decide
    exact (((((hwhat.append (hname a)).append hopen).append (hname x)).append hfollow).append
      (hname a)).append hend
  | explore a x =>
    have hwhat : Inline "explore: discard " := by decide
    exact hwhat.append (hname x)

end Shown

namespace Analysis

/-! ## Tables of an analysis -/

/-- The row of a nonterminal in the parse table. -/
def cellRow (a : Analysis) (x : Symbol) : List String :=
  a.grammar.name x :: a.columns.map (a.cellText x)

/-- The tables of an analysis are boxes that show all of their cells. In the parse table every
    nonterminal has a row and every terminal a column, the last one being that of `$`. -/
structure Tabulated (a : Analysis) : Prop where
  sets : Box.IsBox a.setTable ["NONTERMINAL", "FIRST", "FOLLOW"]
    (a.grammar.nonterminals.map a.setRow)
  cells : Box.IsBox a.cellTable ("" :: a.columns.map a.grammar.name)
    (a.grammar.nonterminals.map a.cellRow)
  steps : Box.IsBox a.traceTable ["STACK", "INPUT", "ACTION"]
    (a.trace.steps.map (stepRow a.grammar))
  nodup_nonterminals : a.grammar.nonterminals.Nodup
  nonterminals : ∀ x, x ∈ a.grammar.nonterminals ↔ a.grammar.isNonterminal x = true
  nodup_columns : a.columns.Nodup
  terminals : ∀ x, x ∈ a.columns ↔ a.grammar.isTerminal x = true
  /-- The columns before the last one are in the order of the bytes of their names. -/
  ordered : ∃ named, a.columns = named ++ [Grammar.endOfInput] ∧
    named.Pairwise fun x y => bytes (a.grammar.name x) < bytes (a.grammar.name y)
  last : a.grammar.name Grammar.endOfInput = "$"
  filled : ∀ x ∈ a.grammar.nonterminals, ∀ cell ∈ a.cellRow x, Visible cell

variable {listing input : String} {options : RunOptions} {a : Analysis}

/-! ## Columns -/

/-- The terminals with columns before the last one. -/
def named (a : Analysis) : List Symbol :=
  (a.grammar.terminals.filter (· != Grammar.endOfInput)).mergeSort fun x y =>
    (compare (a.grammar.name x) (a.grammar.name y)).isLE

theorem columns_eq (a : Analysis) : a.columns = a.named ++ [Grammar.endOfInput] := rfl

theorem mem_named {x : Symbol} :
    x ∈ a.named ↔ a.grammar.isTerminal x = true ∧ x ≠ Grammar.endOfInput := by
  rw [named, List.mem_mergeSort, List.mem_filter, Grammar.mem_terminals, bne_iff_ne]

theorem nodup_named (a : Analysis) : a.named.Nodup :=
  (List.mergeSort_perm _ _).nodup_iff.2 ((Grammar.nodup_terminals _).filter _)

theorem nodup_columns (a : Analysis) : a.columns.Nodup := by
  rw [columns_eq, List.nodup_append]
  refine ⟨nodup_named a, List.nodup_singleton _, fun x hx y hy => ?_⟩
  rw [List.mem_singleton.1 hy]
  exact (mem_named.1 hx).2

theorem mem_columns (hwf : a.grammar.WellFormed) {x : Symbol} :
    x ∈ a.columns ↔ a.grammar.isTerminal x = true := by
  rw [columns_eq, List.mem_append, mem_named, List.mem_singleton]
  by_cases hx : x = Grammar.endOfInput
  · simp [hx, hwf.terminal_endOfInput]
  · simp [hx]

theorem isLE_compare_total (s t : String) :
    ((compare s t).isLE || (compare t s).isLE) = true := by
  have hswap : compare t s = (compare s t).swap := Std.OrientedCmp.eq_swap
  rw [hswap]
  cases compare s t <;> rfl

/-- Sorting puts no name after a lesser one, and no two terminals have the same name. -/
theorem pairwise_named (h : Grammar.load listing = .ok a.grammar) :
    a.named.Pairwise fun x y => bytes (a.grammar.name x) < bytes (a.grammar.name y) := by
  have hsorted : a.named.Pairwise fun x y =>
      (compare (a.grammar.name x) (a.grammar.name y)).isLE = true :=
    List.pairwise_mergeSort (fun _ _ _ => Std.TransCmp.isLE_trans)
      (fun _ _ => isLE_compare_total _ _) _
  refine (hsorted.and (nodup_named a)).imp_of_mem fun {x y} hx hy hle => ?_
  have hne : a.grammar.name x ≠ a.grammar.name y := fun heq =>
    hle.2 (Grammar.name_inj_of_terminal h (mem_named.1 hx).1 (mem_named.1 hy).1 heq)
  cases hcompare : compare (a.grammar.name x) (a.grammar.name y) with
  | lt => exact Text.compare_eq_lt_iff_bytes.1 hcompare
  | eq => exact absurd (Std.LawfulEqOrd.compare_eq_iff_eq.1 hcompare) hne
  | gt =>
    rw [hcompare] at hle
    cases hle.1

/-! ## Cells -/

theorem visible_cellText (hproper : a.Proper options) (h : ∀ x, Unbroken (a.grammar.name x))
    {x y : Symbol} (hx : x ∈ a.grammar.nonterminals) (hy : y ∈ a.columns) :
    Visible (a.cellText x y) := by
  have hterminal : y ∈ a.grammar.terminals :=
    (Grammar.mem_terminals _ _).2 ((mem_columns hproper.built.wellFormed).1 hy)
  have hsome : (a.table.get? x y).isSome = true := by
    rw [hproper.table]
    exact ParseTable.isSome_get? a.first a.follow hx hterminal
  obtain ⟨cell, hcell⟩ := Option.isSome_iff_exists.1 hsome
  unfold cellText
  rw [hcell]
  cases cell with
  | rule r => exact Grammar.visible_displayRhs h r
  | extract => exact (by decide : Visible "extract")
  | explore => exact (by decide : Visible "explore")

theorem inline_cellText (h : ∀ x, Unbroken (a.grammar.name x)) (x y : Symbol) :
    Inline (a.cellText x y) := by
  unfold cellText
  split
  · exact Grammar.inline_displayRhs h _
  · decide
  · decide
  · decide

theorem inline_setText (h : ∀ x, Unbroken (a.grammar.name x)) (s? : Option LookaheadSet) :
    Inline (a.setText s?) := by
  cases s? with
  | none => exact (by decide : Inline "")
  | some s => exact LookaheadSet.inline_display h s

/-! ## Boxes -/

theorem isBox_setTable (h : ∀ x, Unbroken (a.grammar.name x)) :
    Box.IsBox a.setTable ["NONTERMINAL", "FIRST", "FOLLOW"]
      (a.grammar.nonterminals.map a.setRow) := by
  refine Box.isBox_draw (List.forall_mem_map.2 fun x _ => rfl)
    (List.forall_mem_cons.2 ⟨by decide, ?_⟩)
  refine List.forall_mem_map.2 fun x _ => ?_
  simp only [setRow, List.forall_mem_cons]
  exact ⟨(h x).inline, inline_setText h _, inline_setText h _, List.forall_mem_nil _⟩

theorem isBox_cellTable (h : ∀ x, Unbroken (a.grammar.name x)) :
    Box.IsBox a.cellTable ("" :: a.columns.map a.grammar.name)
      (a.grammar.nonterminals.map a.cellRow) := by
  refine Box.isBox_draw ?_ (List.forall_mem_cons.2 ⟨?_, ?_⟩)
  · refine List.forall_mem_map.2 fun x _ => ?_
    rw [List.length_cons, List.length_map, List.length_cons, List.length_map]
  · refine List.forall_mem_cons.2 ⟨by decide, List.forall_mem_map.2 fun x _ => (h x).inline⟩
  · refine List.forall_mem_map.2 fun x _ => List.forall_mem_cons.2 ⟨(h x).inline, ?_⟩
    exact List.forall_mem_map.2 fun y _ => inline_cellText h x y

theorem isBox_traceTable (h : ∀ x, Unbroken (a.grammar.name x)) :
    Box.IsBox a.traceTable ["STACK", "INPUT", "ACTION"]
      (a.trace.steps.map (stepRow a.grammar)) := by
  refine Box.isBox_draw (List.forall_mem_map.2 fun s _ => rfl)
    (List.forall_mem_cons.2 ⟨by decide, ?_⟩)
  refine List.forall_mem_map.2 fun s _ => ?_
  simp only [stepRow, List.forall_mem_cons]
  exact ⟨Grammar.inline_names h _, Grammar.inline_names h _, Action.inline_display h _,
    List.forall_mem_nil _⟩

/-- Sums without parentheses. -/
def sumListing : String :=
  "S → T S'\nT → id\nS' → + T S' | ε"

def sumSetLines : List String :=
  ["+-------------+----------+----------+",
    "| NONTERMINAL | FIRST    | FOLLOW   |",
    "+-------------+----------+----------+",
    "| S           | \x7b id \x7d   | \x7b $ \x7d    |",
    "| T           | \x7b id \x7d   | \x7b $, + \x7d |",
    "| S'          | \x7b +, ε \x7d | \x7b $ \x7d    |",
    "+-------------+----------+----------+"]

/-- The tables of every analysis that gets to parsing are boxes that show all of their cells, and
    its parse table has a row for each nonterminal, a column for each terminal and no blank cell. -/
theorem tabulated_of_ofText (h : ofText listing input options = .ok a) : a.Tabulated := by
  have hproper := proper_of_ofText h
  have hload := load_of_ofText h
  have hwf := hproper.built.wellFormed
  have hnames : ∀ x, Unbroken (a.grammar.name x) := Grammar.unbroken_name hload
  constructor
  case sets => exact isBox_setTable hnames
  case cells => exact isBox_cellTable hnames
  case steps => exact isBox_traceTable hnames
  case nodup_nonterminals => exact hproper.built.nodup_nonterminals
  case nonterminals => exact hwf.mem_nonterminals
  case nodup_columns => exact nodup_columns a
  case terminals => exact fun x => mem_columns hwf
  case ordered => exact ⟨a.named, columns_eq a, pairwise_named hload⟩
  case last => exact Grammar.name_endOfInput hload
  case filled =>
    intro x hx
    refine List.forall_mem_cons.2 ⟨(hnames x).visible, ?_⟩
    exact List.forall_mem_map.2 fun y hy => visible_cellText hproper hnames hx hy

theorem tabulated_sum : ∃ a, ofText sumListing "id" {} = .ok a ∧
    a.setTable = String.join (sumSetLines.map fun line => line ++ "\n") ∧ a.Tabulated := by
  obtain ⟨a, hok, hsets⟩ := exists_of_ofText
    (fun a => a.setTable = String.join (sumSetLines.map fun line => line ++ "\n"))
    (by decide +kernel : (ofText sumListing "id" {}).toOption.any _ = true)
  exact ⟨a, hok, hsets, tabulated_of_ofText hok⟩

end Analysis

end Predictive
