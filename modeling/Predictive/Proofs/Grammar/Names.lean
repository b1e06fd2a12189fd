-- SUMMARY: The names in a loaded grammar: each of them a word, and none of them that of two terminals.
import Predictive.Proofs.Grammar.Listing
import Predictive.Proofs.Grammar.Reading
import Predictive.Proofs.Text.Inline

/-!
# Names in loaded grammars

The names of a listing were cut out of its lines at blanks, and a symbol without a name is shown by
its number, so whatever symbol of a loaded grammar is shown, it is shown as a word. A name belongs
to one symbol only.
-/

namespace Predictive

open Text (Unbroken)

namespace Listing

variable {ps : List Production} {name : String} {x : Symbol}

theorem IsWord.unbroken (h : IsWord name) : Unbroken name :=
  ⟨h.nonempty, h.noBlank⟩

theorem IsLhs.unbroken (h : IsLhs name) : Unbroken name :=
  ⟨h.nonempty, h.noBlank⟩

theorem unbroken_of_mem_names (hlegible : ∀ p ∈ ps, Legible p) (h : name ∈ names ps) :
    Unbroken name := by
  rcases mem_names.1 h with rfl | ⟨p, hp, hname⟩
  · decide
  · rcases List.mem_cons.1 hname with rfl | hname
    · exact (hlegible p hp).lhs.unbroken
    · obtain ⟨a, ha, hname⟩ := List.mem_flatMap.1 hname
      exact ((hlegible p hp).words a ha name hname).unbroken

/-- Terminals are the end of input and the symbols of other names. -/
theorem exists_name_of_terminal (ps : List Production)
    (h : (builder ps).terminalSet.contains x = true) :
    ∃ name ∈ names ps, symbol (names ps) name = x := by
  rcases (Builder.contains_terminalSet _ _).1 h with rfl | ⟨hmentioned, -⟩
  · exact ⟨endOfInputName, mem_names.2 (.inl rfl), symbol_endOfInputName ps⟩
  · obtain ⟨p, hp, a, ha, name, hname, hx⟩ := exists_name_of_mem_mentioned hmentioned
    exact ⟨name, mem_names_of_alternative hp ha hname, hx⟩

end Listing

namespace Grammar

variable {text : String} {g : Grammar} {x y : Symbol}

theorem unbroken_name (h : Grammar.load text = .ok g) (x : Symbol) : Unbroken (g.name x) := by
  obtain ⟨p, ps, hread, rfl⟩ := load_eq_ok h
  have hlegible : ∀ q ∈ p :: ps, Listing.Legible q := fun q hq =>
    Listing.legible_of_mem_productions (hread ▸ hq)
  rw [name_layout, Listing.displayName_builder]
  cases hfound : (Listing.names (p :: ps))[x.id]? with
  | none =>
    have hmark : Unbroken "#" := by decide
    exact hmark.append (Text.unbroken_toString x.id)
  | some name => exact Listing.unbroken_of_mem_names hlegible (List.mem_of_getElem? hfound)

theorem name_endOfInput (h : Grammar.load text = .ok g) : g.name endOfInput = endOfInputName := by
  obtain ⟨p, ps, -, rfl⟩ := load_eq_ok h
  rw [← Listing.symbol_endOfInputName (p :: ps)]
  exact Listing.displayName_symbol (Listing.mem_names.2 (.inl rfl))

theorem isTerminal_layout (b : Builder) (start x : Symbol) :
    (b.layout start).isTerminal x = b.terminalSet.contains x := rfl

/-- Terminals with the same name are the same. -/
theorem name_inj_of_terminal (h : Grammar.load text = .ok g) (hx : g.isTerminal x = true)
    (hy : g.isTerminal y = true) (heq : g.name x = g.name y) : x = y := by
  obtain ⟨p, ps, -, rfl⟩ := load_eq_ok h
  rw [isTerminal_layout] at hx hy
  rw [name_layout] at heq
  obtain ⟨name, hname, rfl⟩ := Listing.exists_name_of_terminal (p :: ps) hx
  obtain ⟨name', hname', rfl⟩ := Listing.exists_name_of_terminal (p :: ps) hy
  rw [Listing.displayName_symbol hname, Listing.displayName_symbol hname'] at heq
  rw [heq]

end Grammar

end Predictive
