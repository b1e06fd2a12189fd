-- SUMMARY: The scanner finds nothing but terminals of the grammar, and never the end of input.
import Predictive.Proofs.Symbol.Bits
import Predictive.Vocabulary

/-!
# Tokens

Every symbol in the vocabulary of a grammar is one of its terminals other than `$`, and the scanner
takes its terminals from the vocabulary.
-/

namespace Predictive

namespace Vocabulary

/-- All symbols of the vocabulary have the property. -/
def All (v : Vocabulary) (P : Symbol → Prop) : Prop :=
  ∀ (name : String) (x : Symbol), v[name]? = some x → P x

variable {P : Symbol → Prop} {v : Vocabulary}

theorem All.insert (h : v.All P) (name : String) {x : Symbol} (hx : P x) :
    All (v.insert name x) P := by
  intro name' y hy
  rw [Std.ExtTreeMap.getElem?_insert] at hy
  split at hy
  · cases hy
    exact hx
  · exact h name' y hy

theorem all_ofGrammar (g : Grammar) :
    (ofGrammar g).All fun x => g.isTerminal x = true ∧ x ≠ Grammar.endOfInput := by
  have hmem : ∀ x ∈ g.terminals.filter (· != Grammar.endOfInput),
      g.isTerminal x = true ∧ x ≠ Grammar.endOfInput := by
    intro x hx
    obtain ⟨hterm, hne⟩ := List.mem_filter.1 hx
    exact ⟨SymbolSet.mem_toList.1 hterm, by simpa using hne⟩
  have hempty : All (∅ : Vocabulary) fun x => g.isTerminal x = true ∧ x ≠ Grammar.endOfInput :=
    fun name x h => by simp at h
  unfold ofGrammar
  generalize g.terminals.filter (· != Grammar.endOfInput) = xs at hmem
  generalize (∅ : Vocabulary) = v at hempty
  induction xs generalizing v with
  | nil => exact hempty
  | cons x xs ih =>
    rw [List.foldl_cons]
    refine ih (fun y hy => hmem y (by simp [hy])) _ ?_
    split
    · exact hempty
    · next name _ => exact hempty.insert name (hmem x (by simp))

theorem All.scanFrom (h : v.All P) (pending : List Char) (begin offset : Nat) (input : List Char) :
    ∀ lexeme ∈ (v.scanFrom pending begin offset input).lexemes, P lexeme.terminal := by
  induction input generalizing pending begin offset with
  | nil => simp [Vocabulary.scanFrom]
  | cons c cs ih =>
    simp only [Vocabulary.scanFrom]
    split
    · split
      · exact ih _ _ _
      · simp
    · split
      · next x hx =>
        intro lexeme hmem
        rcases List.mem_cons.1 hmem with rfl | hmem
        · exact h _ x hx
        · exact ih _ _ _ lexeme hmem
      · split
        · exact ih _ _ _
        · simp

end Vocabulary

theorem Grammar.terminal_of_tokenize {g : Grammar} {input : String} {tokens : List Symbol}
    (h : g.tokenize input = .ok tokens) :
    ∀ x ∈ tokens, g.isTerminal x = true ∧ x ≠ Grammar.endOfInput := by
  simp only [tokenize] at h
  split at h
  · cases h
  · cases h
    intro x hx
    obtain ⟨lexeme, hlexeme, rfl⟩ := List.mem_map.1 hx
    exact (Vocabulary.all_ofGrammar g).scanFrom [] 0 0 input.toList lexeme hlexeme

end Predictive
