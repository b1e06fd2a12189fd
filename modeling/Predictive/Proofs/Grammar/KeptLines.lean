-- SUMMARY: Which lines of a listing hold a production, said of their text alone.
import Mathlib.Data.List.Infix
import Predictive.Proofs.Grammar.Reading
import Predictive.Proofs.Text.Marks

/-!
# Kept lines

A line is kept if it has an arrow behind a text that can name a nonterminal. This is said here of
the characters of the line, without the functions that read it: the arrow is the first `→`, or the
first `->` in a line that has no `→`, and blanks around the line and around the name do not count.
Reading a text finds the kept lines, in their order, and nothing else.
-/

namespace Predictive

/-- What a kept line consists of, from left to right. -/
structure KeptLine where
  lhs : String
  arrow : List Char
  rhs : List Char
deriving DecidableEq, Repr

namespace KeptLine

/-- The names on the right of the arrow: the alternatives between the bars but for the blank ones,
    each a list of words without those for the empty string. -/
def alternatives (k : KeptLine) : List (List String) :=
  (((Text.pieces (· == '|') k.rhs).map Text.trim).filter fun text => text ≠ []).map fun text =>
    ((Text.words text).map String.ofList).filter fun word => word ∉ ["ε", "epsilon"]

/-- The production that the line is read as. -/
def production (k : KeptLine) : Production :=
  ⟨k.lhs, Listing.readAlternatives k.rhs⟩

end KeptLine

namespace Listing

variable {line before after : List Char} {lines : List (List Char)} {k k' : KeptLine}
  {ks ks' : List KeptLine} {p : Production} {name : String}

/-! ## Kept lines -/

/-- The line is cut at its first `→`, or else at its first `->`. -/
inductive CutsAt (line : List Char) : (before arrow after : List Char) → Prop
  | unicode {before after : List Char} :
    Text.FirstAt ['→'] line before after → CutsAt line before ['→'] after
  | ascii {before after : List Char} : '→' ∉ line →
    Text.FirstAt ['-', '>'] line before after → CutsAt line before ['-', '>'] after

/-- The name can stand left of an arrow. -/
structure LeftSide (name : String) : Prop where
  nonempty : name.toList ≠ []
  noBlank : ∀ c ∈ name.toList, Text.isBlank c = false
  notReserved : name ∉ ["$", "ε", "epsilon"]

structure Keeps (line : List Char) (k : KeptLine) : Prop where
  cut : ∃ before, CutsAt (Text.trim line) before k.arrow k.rhs ∧
    k.lhs = String.ofList (Text.trim before)
  lhs : LeftSide k.lhs

/-- The kept ones of several lines, in their order. -/
inductive KeptLines : List (List Char) → List KeptLine → Prop
  | nil : KeptLines [] []
  | keep {line : List Char} {lines : List (List Char)} {k : KeptLine} {ks : List KeptLine} :
    Keeps line k → KeptLines lines ks → KeptLines (line :: lines) (k :: ks)
  | skip {line : List Char} {lines : List (List Char)} {ks : List KeptLine} :
    (∀ k, ¬ Keeps line k) → KeptLines lines ks → KeptLines (line :: lines) ks

/-! ## Cutting at the arrow -/

theorem CutsAt.unique {before' arrow arrow' after' : List Char} (h : CutsAt line before arrow after)
    (h' : CutsAt line before' arrow' after') :
    before = before' ∧ arrow = arrow' ∧ after = after' := by
  cases h with
  | unicode h =>
    cases h' with
    | unicode h' =>
      obtain ⟨rfl, rfl⟩ := h.unique h'
      exact ⟨rfl, rfl, rfl⟩
    | ascii hno => exact absurd (by simp [h.eq]) hno
  | ascii hno h =>
    cases h' with
    | unicode h' => exact absurd (by simp [h'.eq]) hno
    | ascii _ h' =>
      obtain ⟨rfl, rfl⟩ := h.unique h'
      exact ⟨rfl, rfl, rfl⟩

theorem CutsAt.ne_nil {arrow : List Char} (h : CutsAt line before arrow after) : line ≠ [] := by
  cases h with
  | unicode h => simp [h.eq]
  | ascii _ h => simp [h.eq]

theorem splitArrow?_eq_some_iff {lhs rhs : List Char} : splitArrow? line = some (lhs, rhs) ↔
    ∃ before arrow, CutsAt line before arrow rhs ∧ Text.trim before = lhs := by
  rw [splitArrow?_eq]
  refine ⟨fun h => ?_, ?_⟩
  · obtain ⟨⟨before, after⟩, hcut, heq⟩ := Option.map_eq_some_iff.1 h
    cases heq
    rcases Option.or_eq_some_iff.1 hcut with hfirst | ⟨hnone, hsecond⟩
    · exact ⟨before, _, .unicode (Text.firstAt_of_cutAt? hfirst), rfl⟩
    · have hno := Text.not_mem_of_cutAt?_eq_none hnone
      exact ⟨before, _, .ascii hno (Text.firstAt_of_cutAt? hsecond), rfl⟩
  · rintro ⟨before, arrow, hcut, rfl⟩
    cases hcut with
    | unicode hfirst =>
      rw [Text.cutAt?_eq_some_iff.2 hfirst]
      rfl
    | ascii hno hsecond =>
      have hnone : Text.cutAt? ['→'] line = none :=
        Text.cutAt?_eq_none_iff.2 fun hoccurs => hno ((List.singleton_infix_iff _ _).1 hoccurs)
      rw [hnone, Text.cutAt?_eq_some_iff.2 hsecond]
      rfl

theorem isValidLhs_iff {lhs : List Char} :
    isValidLhs lhs = true ↔ LeftSide (String.ofList lhs) := by
  have hreserved : String.ofList lhs ∉ ["$", "ε", "epsilon"] ↔
      (String.ofList lhs != endOfInputName) = true ∧ isEpsilon (String.ofList lhs) = false := by
    simp [isEpsilon, epsilons, epsilonText, endOfInputName]
  simp only [isValidLhs, Bool.and_eq_true, Bool.not_eq_true', List.any_eq_false,
    List.isEmpty_eq_false_iff, Bool.not_eq_true]
  refine ⟨?_, fun h => ?_⟩
  · rintro ⟨⟨⟨hne, hblank⟩, hend⟩, hepsilon⟩
    refine ⟨?_, ?_, hreserved.2 ⟨hend, hepsilon⟩⟩
    · rwa [String.toList_ofList]
    · rwa [String.toList_ofList]
  · obtain ⟨hend, hepsilon⟩ := hreserved.1 h.notReserved
    have hne := h.nonempty
    have hblank := h.noBlank
    rw [String.toList_ofList] at hne hblank
    exact ⟨⟨⟨hne, hblank⟩, hend⟩, hepsilon⟩

/-! ## Reading -/

theorem Keeps.unique (h : Keeps line k) (h' : Keeps line k') : k = k' := by
  obtain ⟨before, hcut, hlhs⟩ := h.cut
  obtain ⟨before', hcut', hlhs'⟩ := h'.cut
  obtain ⟨rfl, harrow, hrhs⟩ := hcut.unique hcut'
  cases k
  cases k'
  simp_all

/-- A trimmed line is read as a production if it is kept, and otherwise not. -/
theorem production?_trim :
    production? (Text.trim line) = some p ↔ ∃ k, Keeps line k ∧ k.production = p := by
  refine ⟨fun h => ?_, ?_⟩
  · rw [production?, Option.ite_none_left_eq_some] at h
    obtain ⟨-, h⟩ := h
    split at h
    · next hread =>
      cases h
      unfold readLine at hread
      split at hread
      · cases hread
      · next lhs rhs hsplit =>
        obtain ⟨before, arrow, hcut, rfl⟩ := splitArrow?_eq_some_iff.1 hsplit
        split at hread
        · next hvalid =>
          cases hread
          exact ⟨⟨_, arrow, rhs⟩, ⟨⟨before, hcut, rfl⟩, isValidLhs_iff.1 hvalid⟩, rfl⟩
        · cases hread
    · cases h
  · rintro ⟨k, hk, rfl⟩
    obtain ⟨before, hcut, hlhs⟩ := hk.cut
    have hsplit := splitArrow?_eq_some_iff.2 ⟨before, k.arrow, hcut, rfl⟩
    have hvalid : isValidLhs (Text.trim before) = true := isValidLhs_iff.2 (hlhs ▸ hk.lhs)
    simp [production?, hcut.ne_nil, readLine, hsplit, hvalid, KeptLine.production, hlhs]

theorem production?_trim_eq_none (h : ∀ k, ¬ Keeps line k) :
    production? (Text.trim line) = none := by
  refine Option.eq_none_iff_forall_ne_some.2 fun p hp => ?_
  obtain ⟨k, hk, -⟩ := production?_trim.1 hp
  exact h k hk

theorem KeptLines.exists (lines : List (List Char)) : ∃ ks, KeptLines lines ks := by
  induction lines with
  | nil => exact ⟨[], .nil⟩
  | cons line lines ih =>
    obtain ⟨ks, hks⟩ := ih
    by_cases hkeeps : ∃ k, Keeps line k
    · obtain ⟨k, hk⟩ := hkeeps
      exact ⟨k :: ks, .keep hk hks⟩
    · exact ⟨ks, .skip (not_exists.1 hkeeps) hks⟩

theorem KeptLines.unique (h : KeptLines lines ks) (h' : KeptLines lines ks') : ks = ks' := by
  induction h generalizing ks' with
  | nil =>
    cases h'
    rfl
  | keep hk _ ih =>
    cases h' with
    | keep hk' h' => rw [hk.unique hk', ih h']
    | skip hskip => exact absurd hk (hskip _)
  | skip hskip _ ih =>
    cases h' with
    | keep hk' => exact absurd hk' (hskip _)
    | skip _ h' => exact ih h'

theorem KeptLines.filterMap_production? (h : KeptLines lines ks) :
    (lines.map Text.trim).filterMap production? = ks.map KeptLine.production := by
  induction h with
  | nil => rfl
  | keep hk _ ih =>
    rw [List.map_cons, List.filterMap_cons_some (production?_trim.2 ⟨_, hk, rfl⟩), ih,
      List.map_cons]
  | skip hskip _ ih =>
    rw [List.map_cons, List.filterMap_cons_none (production?_trim_eq_none hskip), ih]

theorem KeptLines.leftSide (h : KeptLines lines ks) (hk : k ∈ ks) : LeftSide k.lhs := by
  induction h with
  | nil => cases hk
  | keep hkeeps _ ih =>
    rcases List.mem_cons.1 hk with rfl | hk
    · exact hkeeps.lhs
    · exact ih hk
  | skip _ _ ih => exact ih hk

/-- A word for the empty string has no other word in it. -/
theorem names_readAlternative (text : List Char) : (readAlternative text).names =
    ((Text.words text).map String.ofList).filter fun word => word ∉ ["ε", "epsilon"] := by
  unfold readAlternative
  split
  · next hepsilon =>
    have htext : text = ['ε'] ∨ text = ['e', 'p', 's', 'i', 'l', 'o', 'n'] := by
      simpa [isEpsilon, epsilons, epsilonText, ← String.toList_inj] using hepsilon
    rcases htext with rfl | rfl <;> rfl
  · refine List.filter_congr fun word _ => ?_
    simp [isEpsilon, epsilons, epsilonText]

/-- The production of a kept line has the alternatives that stand in the line. -/
theorem names_production (k : KeptLine) :
    k.production.alternatives.map Alternative.names = k.alternatives := by
  rw [KeptLine.production, KeptLine.alternatives, readAlternatives, List.map_map]
  have hblank : ∀ text : List Char, (!text.isEmpty) = decide (text ≠ []) := by
    intro text
    cases text <;> rfl
  simp only [hblank]
  exact List.map_congr_left fun text _ => names_readAlternative text

end Listing

end Predictive
