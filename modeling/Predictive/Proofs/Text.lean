-- SUMMARY: Laws of cutting text: pieces and words of joined text, trimming, and what stands before a mark.
import Mathlib.Data.List.DropRight
import Predictive.Text.Split

/-!
# Cutting joined text

Cutting undoes joining: where no piece has a cut inside, the pieces of the joined text are the
pieces that were joined, and the same is true of words. Trimming takes away what surrounds a text
that is solid, that is, one that neither begins nor ends with a blank. A mark of one character is
found where it first occurs.
-/

namespace Predictive.Text

variable {cut : Char → Bool} {cs piece before after : List Char} {c m : Char}

/-! ## Pieces -/

theorem pieces_eq_splitOnP (cut : Char → Bool) (cs : List Char) :
    pieces cut cs = cs.splitOnP cut := by
  induction cs with
  | nil => rfl
  | cons c cs ih =>
    rw [pieces, List.splitOnP_cons_eq_if_modifyHead, ih]
    split
    · rfl
    · cases hpieces : cs.splitOnP cut with
      | nil => exact absurd hpieces (List.splitOnP_ne_nil cut cs)
      | cons piece rest => rfl

theorem pieces_append_cons (h : ∀ x ∈ piece, cut x = false) (hc : cut c = true)
    (rest : List Char) : pieces cut (piece ++ c :: rest) = piece :: pieces cut rest := by
  rw [pieces_eq_splitOnP, pieces_eq_splitOnP,
    List.splitOnP_append_cons_of_forall_mem h c hc rest]

theorem pieces_of_forall (h : ∀ x ∈ cs, cut x = false) : pieces cut cs = [cs] := by
  rw [pieces_eq_splitOnP, List.splitOnP_eq_singleton h]

theorem mem_of_mem_pieces (h : piece ∈ pieces cut cs) (hc : c ∈ piece) :
    c ∈ cs ∧ cut c = false := by
  induction cs generalizing piece with
  | nil =>
    obtain rfl : piece = [] := by simpa [pieces] using h
    cases hc
  | cons x cs ih =>
    have hrest : ∀ {piece}, piece ∈ pieces cut cs → c ∈ piece → c ∈ x :: cs ∧ cut c = false :=
      fun hpiece hmem => ⟨List.mem_cons_of_mem x (ih hpiece hmem).1, (ih hpiece hmem).2⟩
    rw [pieces_eq_splitOnP, List.splitOnP_cons_eq_if_modifyHead, ← pieces_eq_splitOnP] at h
    split at h
    · rcases List.mem_cons.1 h with rfl | h
      · cases hc
      · exact hrest h hc
    · next hx =>
      obtain ⟨first, more, hpieces⟩ :=
        List.exists_cons_of_ne_nil (pieces_eq_splitOnP cut cs ▸ List.splitOnP_ne_nil cut cs)
      rw [hpieces] at h hrest
      rcases List.mem_cons.1 h with rfl | h
      · rcases List.mem_cons.1 hc with rfl | hc
        · exact ⟨List.mem_cons_self, by simpa using hx⟩
        · exact hrest List.mem_cons_self hc
      · exact hrest (List.mem_cons_of_mem first h) hc

/-! ## Joining -/

theorem forall_mem_intercalate {P : Char → Prop} {between : List Char}
    (hbetween : ∀ c ∈ between, P c) {texts : List (List Char)}
    (h : ∀ text ∈ texts, ∀ c ∈ text, P c) : ∀ c ∈ between.intercalate texts, P c := by
  induction texts with
  | nil => simp
  | cons text texts ih =>
    obtain ⟨htext, htexts⟩ := List.forall_mem_cons.1 h
    cases texts with
    | nil => simpa using htext
    | cons text' texts =>
      rw [List.intercalate_cons_cons, List.forall_mem_append, List.forall_mem_append]
      exact ⟨⟨htext, hbetween⟩, ih htexts⟩

/-- A character before each text can as well stand behind what is between them. -/
theorem intercalate_map_cons {texts : List (List Char)} (hne : texts ≠ []) (c : Char)
    (between : List Char) :
    between.intercalate (texts.map (c :: ·)) = c :: (between ++ [c]).intercalate texts := by
  induction texts with
  | nil => exact absurd rfl hne
  | cons text texts ih =>
    cases texts with
    | nil => simp
    | cons text' texts =>
      have hrest := ih (by simp)
      rw [List.map_cons] at hrest
      rw [List.map_cons, List.map_cons, List.intercalate_cons_cons, List.intercalate_cons_cons,
        hrest]
      simp

/-! ## Words -/

theorem mem_words (h : piece ∈ words cs) :
    piece ≠ [] ∧ ∀ c ∈ piece, c ∈ cs ∧ isBlank c = false := by
  obtain ⟨hpiece, hne⟩ := List.mem_filter.1 h
  exact ⟨by simpa using hne, fun c hc => mem_of_mem_pieces hpiece hc⟩

/-- Words that are joined by blanks are found again. -/
theorem words_intercalate {ws : List (List Char)}
    (h : ∀ w ∈ ws, w ≠ [] ∧ ∀ c ∈ w, isBlank c = false) : words ([' '].intercalate ws) = ws := by
  induction ws with
  | nil => rfl
  | cons w ws ih =>
    obtain ⟨⟨hne, hw⟩, hws⟩ := List.forall_mem_cons.1 h
    cases ws with
    | nil =>
      rw [List.intercalate_singleton, words, pieces_of_forall hw]
      simp [hne]
    | cons w' ws =>
      have hblank : isBlank ' ' = true := by decide
      have hpieces := pieces_append_cons hw hblank ([' '].intercalate (w' :: ws))
      rw [List.intercalate_cons_cons, List.append_assoc, List.singleton_append, words, hpieces,
        List.filter_cons_of_pos (by simpa using hne)]
      exact congrArg (w :: ·) (ih hws)

/-! ## Trimming -/

theorem mem_of_mem_trim (h : c ∈ trim cs) : c ∈ cs := by
  have hdrop : c ∈ cs.dropWhile isBlank :=
    List.mem_reverse.1 ((List.dropWhile_sublist _).mem (List.mem_reverse.1 h))
  exact (List.dropWhile_sublist _).mem hdrop

/-- Text that begins and ends with characters that are not blank. -/
structure Solid (cs : List Char) : Prop where
  first : ∃ c rest, cs = c :: rest ∧ isBlank c = false
  last : ∃ rest c, cs = rest ++ [c] ∧ isBlank c = false

namespace Solid

theorem of_forall (hne : cs ≠ []) (h : ∀ c ∈ cs, isBlank c = false) : Solid cs where
  first := by
    obtain ⟨c, rest, rfl⟩ := List.exists_cons_of_ne_nil hne
    exact ⟨c, rest, rfl, h c List.mem_cons_self⟩
  last := by
    refine ⟨cs.dropLast, cs.getLast hne, (List.dropLast_append_getLast hne).symm, ?_⟩
    exact h _ (List.getLast_mem hne)

theorem singleton (h : isBlank c = false) : Solid [c] :=
  .of_forall (by simp) (List.forall_mem_singleton.2 h)

theorem ne_nil (h : Solid cs) : cs ≠ [] := by
  obtain ⟨c, rest, rfl, -⟩ := h.first
  simp

/-- Only the two ends count. -/
theorem between (hbefore : Solid before) (hafter : Solid after) (cs : List Char) :
    Solid (before ++ cs ++ after) where
  first := by
    obtain ⟨c, rest, rfl, hc⟩ := hbefore.first
    exact ⟨c, rest ++ cs ++ after, rfl, hc⟩
  last := by
    obtain ⟨rest, c, rfl, hc⟩ := hafter.last
    exact ⟨before ++ cs ++ rest, c, (List.append_assoc _ _ _).symm, hc⟩

theorem intercalate {texts : List (List Char)} (h : ∀ text ∈ texts, Solid text)
    (hne : texts ≠ []) (between : List Char) : Solid (between.intercalate texts) := by
  induction texts with
  | nil => exact absurd rfl hne
  | cons text texts ih =>
    obtain ⟨htext, htexts⟩ := List.forall_mem_cons.1 h
    cases texts with
    | nil => simpa using htext
    | cons text' texts =>
      rw [List.intercalate_cons_cons]
      exact htext.between (ih htexts (by simp)) between

/-- Trimming takes blanks away, and nothing else. -/
theorem trim_between (h : Solid cs) (before after : List Char)
    (hbefore : ∀ c ∈ before, isBlank c = true) (hafter : ∀ c ∈ after, isBlank c = true) :
    trim (before ++ cs ++ after) = cs := by
  have hleft : (before ++ cs ++ after).dropWhile isBlank = cs ++ after := by
    obtain ⟨c, rest, rfl, hc⟩ := h.first
    rw [List.append_assoc, List.dropWhile_append_of_pos hbefore, List.cons_append,
      List.dropWhile_cons_of_neg (by simp [hc])]
  have hright : (cs ++ after).reverse.dropWhile isBlank = cs.reverse := by
    obtain ⟨rest, c, rfl, hc⟩ := h.last
    rw [List.reverse_append, List.dropWhile_append_of_pos (by simpa using hafter),
      List.reverse_append, List.reverse_singleton, List.singleton_append,
      List.dropWhile_cons_of_neg (by simp [hc])]
  rw [trim, hleft, hright, List.reverse_reverse]

theorem trim_eq (h : Solid cs) : trim cs = cs := by
  simpa using h.trim_between [] [] (by simp) (by simp)

end Solid

/-! ## Marks -/

theorem eq_of_cutAt? {mark : List Char} (h : cutAt? mark cs = some (before, after)) :
    cs = before ++ mark ++ after := by
  induction cs generalizing before with
  | nil =>
    rw [cutAt?] at h
    split at h
    · next hempty =>
      cases h
      simpa using hempty
    · cases h
  | cons c cs ih =>
    rw [cutAt?] at h
    split at h
    · next hmark =>
      cases h
      exact (List.prefix_iff_eq_append.1 (List.isPrefixOf_iff_prefix.1 hmark)).symm
    · obtain ⟨⟨before', after'⟩, hrest, heq⟩ := Option.map_eq_some_iff.1 h
      cases heq
      rw [ih hrest]
      rfl

/-- A mark of one character is found where it first occurs. -/
theorem cutAt?_of_not_mem (h : m ∉ before) (after : List Char) :
    cutAt? [m] (before ++ m :: after) = some (before, after) := by
  induction before with
  | nil => simp [cutAt?]
  | cons c before ih =>
    have hc : m ≠ c := List.ne_of_not_mem_cons h
    simp [cutAt?, hc, ih (List.not_mem_of_not_mem_cons h)]

theorem not_mem_of_cutAt? (h : cutAt? [m] cs = some (before, after)) : m ∉ before := by
  induction cs generalizing before with
  | nil => simp [cutAt?] at h
  | cons c cs ih =>
    rw [cutAt?] at h
    split at h
    · cases h
      simp
    · next hmark =>
      obtain ⟨⟨before', after'⟩, hrest, heq⟩ := Option.map_eq_some_iff.1 h
      cases heq
      have hc : m ≠ c := by simpa using hmark
      exact List.not_mem_cons_of_ne_of_not_mem hc (ih hrest)

theorem not_mem_of_cutAt?_eq_none (h : cutAt? [m] cs = none) : m ∉ cs := by
  intro hmem
  obtain ⟨before, after, rfl, hbefore⟩ := List.eq_append_cons_of_mem hmem
  simp [cutAt?_of_not_mem hbefore after] at h

end Predictive.Text
