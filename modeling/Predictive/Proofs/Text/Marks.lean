-- SUMMARY: Where a mark first occurs in a text, and what trimming leaves around it.
import Predictive.Proofs.Text

/-!
# Marks in a text

Cutting at a mark finds its first occurrence. A mark that does not begin again inside itself is
found behind any text that does not contain it. Blanks at the ends of a text are neither part of
such a mark nor of anything that is read between two cuts.
-/

namespace Predictive.Text

variable {cut : Char → Bool} {mark tail cs before after before' after' : List Char} {c m : Char}

/-! ## First occurrences -/

/-- The mark occurs in the text between `before` and `after`, and nowhere earlier. -/
structure FirstAt (mark cs before after : List Char) : Prop where
  eq : cs = before ++ mark ++ after
  first : ∀ before' after', cs = before' ++ mark ++ after' → before.length ≤ before'.length

theorem FirstAt.unique (h : FirstAt mark cs before after) (h' : FirstAt mark cs before' after') :
    before = before' ∧ after = after' := by
  have hlength : before.length = before'.length :=
    Nat.le_antisymm (h.first _ _ h'.eq) (h'.first _ _ h.eq)
  have heq := h.eq.symm.trans h'.eq
  rw [List.append_assoc, List.append_assoc] at heq
  obtain ⟨hbefore, hrest⟩ := List.append_inj heq hlength
  exact ⟨hbefore, List.append_cancel_left hrest⟩

theorem cutAt?_eq_none_iff : cutAt? mark cs = none ↔ ¬ mark <:+: cs := by
  induction cs with
  | nil => simp [cutAt?]
  | cons c cs ih =>
    rw [cutAt?, List.infix_cons_iff, not_or, ← ih]
    split
    · next hmark => simp [List.isPrefixOf_iff_prefix.1 hmark]
    · next hmark =>
      have hstarts : ¬ mark <+: c :: cs := fun h => hmark (List.isPrefixOf_iff_prefix.2 h)
      simp [hstarts]

theorem firstAt_of_cutAt? (h : cutAt? mark cs = some (before, after)) :
    FirstAt mark cs before after := by
  refine ⟨eq_of_cutAt? h, ?_⟩
  induction cs generalizing before with
  | nil =>
    rw [cutAt?] at h
    split at h <;> simp_all
  | cons c cs ih =>
    intro before' after' heq
    rw [cutAt?] at h
    split at h
    · cases h
      exact Nat.zero_le _
    · next hmark =>
      obtain ⟨⟨first, rest⟩, hcut, hsome⟩ := Option.map_eq_some_iff.1 h
      cases hsome
      cases before' with
      | nil =>
        refine absurd (List.isPrefixOf_iff_prefix.2 ?_) hmark
        exact ⟨after', by simpa using heq.symm⟩
      | cons d before' =>
        rw [List.cons_append, List.cons_append, List.cons.injEq] at heq
        exact Nat.succ_le_succ (ih hcut before' after' heq.2)

theorem cutAt?_eq_some_iff :
    cutAt? mark cs = some (before, after) ↔ FirstAt mark cs before after := by
  refine ⟨firstAt_of_cutAt?, fun h => ?_⟩
  cases hcut : cutAt? mark cs with
  | none => exact absurd ⟨before, after, h.eq.symm⟩ (cutAt?_eq_none_iff.1 hcut)
  | some cutting =>
    obtain ⟨rfl, rfl⟩ := (firstAt_of_cutAt? hcut).unique h
    rfl

theorem FirstAt.not_infix_before (h : FirstAt mark cs before after) (hmark : mark ≠ []) :
    ¬ mark <:+: before := by
  rintro ⟨first, rest, rfl⟩
  have hle := h.first first (rest ++ mark ++ after) (by rw [h.eq]; simp only [List.append_assoc])
  have hpos := List.length_pos_iff.2 hmark
  simp only [List.length_append] at hle
  omega

/-- A mark whose first character does not come again in it cannot begin in the text before it and
    end behind. -/
theorem firstAt_append (hm : m ∉ tail) (h : ¬ m :: tail <:+: before) (after : List Char) :
    FirstAt (m :: tail) (before ++ m :: tail ++ after) before after := by
  rw [← cutAt?_eq_some_iff]
  induction before with
  | nil => simp [cutAt?]
  | cons c before ih =>
    rw [List.infix_cons_iff, not_or] at h
    obtain ⟨hstarts, hoccurs⟩ := h
    have hnot : ¬ m :: tail <+: c :: (before ++ m :: tail ++ after) := by
      rw [List.cons_prefix_cons]
      rintro ⟨rfl, htail⟩
      have hbefore : before <+: before ++ m :: tail ++ after := by simp
      rcases List.prefix_or_prefix_of_prefix htail hbefore with hshort | ⟨rest, rfl⟩
      · exact hstarts (List.cons_prefix_cons.2 ⟨rfl, hshort⟩)
      · rw [List.append_assoc, List.prefix_append_right_inj] at htail
        cases rest with
        | nil => simp at hstarts
        | cons d rest =>
          obtain ⟨rfl, -⟩ := List.cons_prefix_cons.1 htail
          simp at hm
    have hfails : (m :: tail).isPrefixOf (c :: (before ++ m :: tail ++ after)) = false :=
      Bool.eq_false_iff.2 fun hmark => hnot (List.isPrefixOf_iff_prefix.1 hmark)
    rw [List.cons_append, List.cons_append, cutAt?, hfails, ih hoccurs]
    rfl

/-! ## Trimming -/

theorem trim_eq_rdropWhile (cs : List Char) :
    trim cs = (cs.dropWhile isBlank).rdropWhile isBlank := rfl

theorem trim_append_left (h : ∀ c ∈ before, isBlank c = true) (cs : List Char) :
    trim (before ++ cs) = trim cs := by
  rw [trim_eq_rdropWhile, List.dropWhile_append_of_pos h, trim_eq_rdropWhile]

theorem trim_append_right (h : ∀ c ∈ after, isBlank c = true) (cs : List Char) :
    trim (cs ++ after) = trim cs := by
  have hafter : after.dropWhile isBlank = [] := List.dropWhile_eq_nil_iff.2 h
  have hright : ∀ ds, (ds ++ after).rdropWhile isBlank = ds.rdropWhile isBlank := by
    intro ds
    rw [List.rdropWhile, List.reverse_append, List.dropWhile_append_of_pos (by simpa using h),
      List.rdropWhile]
  rw [trim_eq_rdropWhile, trim_eq_rdropWhile, List.dropWhile_append]
  split
  · next hempty => rw [hafter, List.isEmpty_iff.1 hempty]
  · exact hright _

/-- Trimming takes a blank text from either side. -/
theorem exists_blanks (cs : List Char) : ∃ before after, cs = before ++ trim cs ++ after ∧
    (∀ c ∈ before, isBlank c = true) ∧ ∀ c ∈ after, isBlank c = true := by
  refine ⟨cs.takeWhile isBlank, (cs.dropWhile isBlank).rtakeWhile isBlank, ?_, ?_, ?_⟩
  · rw [trim_eq_rdropWhile, List.append_assoc, List.rdropWhile_append_rtakeWhile,
      List.takeWhile_append_dropWhile]
  · exact fun c hc => List.mem_takeWhile_imp hc
  · exact fun c hc => List.mem_rtakeWhile_imp hc

theorem mem_trim_of_mem (h : c ∈ cs) (hc : isBlank c = false) : c ∈ trim cs := by
  obtain ⟨before, after, heq, hbefore, hafter⟩ := exists_blanks cs
  rw [heq, List.mem_append, List.mem_append] at h
  rcases h with (h | h) | h
  · simp [hbefore c h] at hc
  · exact h
  · simp [hafter c h] at hc

theorem trim_eq_nil_iff : trim cs = [] ↔ ∀ c ∈ cs, isBlank c = true := by
  refine ⟨fun h c hc => ?_, fun h => ?_⟩
  · by_contra hblank
    simpa [h] using mem_trim_of_mem hc (Bool.eq_false_iff.2 hblank)
  · rw [trim_eq_rdropWhile, List.dropWhile_eq_nil_iff.2 h, List.rdropWhile_nil]

theorem trim_infix_self (cs : List Char) : trim cs <:+: cs := by
  obtain ⟨before, after, heq, -⟩ := exists_blanks cs
  exact ⟨before, after, heq.symm⟩

/-- If there are no other blanks in a text, then a mark without blanks that occurs in it is still
    there after trimming. -/
theorem infix_trim (hmark : ∀ c ∈ mark, isBlank c = false)
    (hcs : ∀ c ∈ trim cs, isBlank c = false) (h : mark <:+: cs) : mark <:+: trim cs := by
  obtain ⟨before, after, heq, hbefore, hafter⟩ := exists_blanks cs
  have hkeep : ∀ ds : List Char, (∀ c ∈ ds, isBlank c = false) →
      ds.filter (fun c => !isBlank c) = ds :=
    fun ds hds => List.filter_eq_self.2 fun c hc => by simp [hds c hc]
  have hdrop : ∀ ds : List Char, (∀ c ∈ ds, isBlank c = true) →
      ds.filter (fun c => !isBlank c) = [] :=
    fun ds hds => List.filter_eq_nil_iff.2 fun c hc => by simp [hds c hc]
  have htrim : cs.filter (fun c => !isBlank c) = trim cs := by
    conv_lhs => rw [heq]
    rw [List.filter_append, List.filter_append, hdrop _ hbefore, hdrop _ hafter, hkeep _ hcs,
      List.nil_append, List.append_nil]
  rw [← htrim, ← hkeep mark hmark]
  exact h.filter _

/-- Around a mark that is not blank at its ends only the far ends of the text are trimmed. -/
theorem trim_around (h : Solid mark) (before after : List Char) :
    trim (before ++ mark ++ after) =
      before.dropWhile isBlank ++ mark ++ after.rdropWhile isBlank := by
  have hleft : (before ++ mark ++ after).dropWhile isBlank =
      before.dropWhile isBlank ++ mark ++ after := by
    obtain ⟨c, rest, rfl, hc⟩ := h.first
    rw [List.append_assoc, List.append_assoc, List.dropWhile_append]
    split
    · next hempty => simp_all
    · rfl
  have hright : ∀ ds : List Char,
      (ds ++ mark ++ after).rdropWhile isBlank = ds ++ mark ++ after.rdropWhile isBlank := by
    intro ds
    obtain ⟨rest, c, rfl, hc⟩ := h.last
    rw [List.rdropWhile, List.reverse_append, List.dropWhile_append]
    split
    · next hempty => simp_all [List.rdropWhile]
    · simp [List.rdropWhile]
  rw [trim_eq_rdropWhile, hleft, hright]

theorem trim_dropWhile (cs : List Char) : trim (cs.dropWhile isBlank) = trim cs := by
  rw [trim_eq_rdropWhile, List.dropWhile_idempotent, trim_eq_rdropWhile]

theorem trim_rdropWhile (cs : List Char) : trim (cs.rdropWhile isBlank) = trim cs := by
  have hblank : ∀ c ∈ cs.rtakeWhile isBlank, isBlank c = true :=
    fun c hc => List.mem_rtakeWhile_imp hc
  rw [← trim_append_right hblank, List.rdropWhile_append_rtakeWhile]

/-! ## Pieces -/

theorem pieces_append (hc : cut c = true) (before after : List Char) :
    pieces cut (before ++ c :: after) = pieces cut before ++ pieces cut after := by
  rw [pieces_eq_splitOnP, pieces_eq_splitOnP, pieces_eq_splitOnP,
    List.splitOnP_append_cons before after hc]

/-- Blanks before a text come to its first piece, where trimming takes them away. -/
theorem map_trim_pieces_append_left (h : ∀ c ∈ before, isBlank c = true ∧ cut c = false)
    (cs : List Char) : (pieces cut (before ++ cs)).map trim = (pieces cut cs).map trim := by
  induction before with
  | nil => rfl
  | cons c before ih =>
    obtain ⟨⟨hblank, hcut⟩, hbefore⟩ := List.forall_mem_cons.1 h
    rw [← ih hbefore, List.cons_append, pieces, if_neg (by simp [hcut])]
    split
    · next hnil =>
      exact absurd (pieces_eq_splitOnP cut _ ▸ hnil) (List.splitOnP_ne_nil cut _)
    · next piece rest hpieces =>
      have htrim : trim (c :: piece) = trim piece :=
        trim_append_left (List.forall_mem_singleton.2 hblank) piece
      rw [hpieces, List.map_cons, List.map_cons, htrim]

theorem exists_pieces_append (h : ∀ c ∈ after, cut c = false) (cs : List Char) :
    ∃ front last, pieces cut cs = front ++ [last] ∧
      pieces cut (cs ++ after) = front ++ [last ++ after] := by
  induction cs with
  | nil => exact ⟨[], [], rfl, pieces_of_forall h⟩
  | cons c cs ih =>
    obtain ⟨front, last, hcs, hafter⟩ := ih
    rw [List.cons_append, pieces, pieces, hcs, hafter]
    split
    · exact ⟨[] :: front, last, rfl, rfl⟩
    · cases front with
      | nil => exact ⟨[], c :: last, rfl, rfl⟩
      | cons piece front => exact ⟨(c :: piece) :: front, last, rfl, rfl⟩

/-- Blanks behind a text come to its last piece. -/
theorem map_trim_pieces_append_right (h : ∀ c ∈ after, isBlank c = true ∧ cut c = false)
    (cs : List Char) : (pieces cut (cs ++ after)).map trim = (pieces cut cs).map trim := by
  obtain ⟨front, last, hcs, hafter⟩ := exists_pieces_append (fun c hc => (h c hc).2) cs
  rw [hcs, hafter, List.map_append, List.map_append, List.map_singleton, List.map_singleton,
    trim_append_right fun c hc => (h c hc).1]

theorem map_trim_pieces_trim (h : ∀ c, isBlank c = true → cut c = false) (cs : List Char) :
    (pieces cut (trim cs)).map trim = (pieces cut cs).map trim := by
  obtain ⟨before, after, hcs, hbefore, hafter⟩ := exists_blanks cs
  conv_rhs => rw [hcs]
  rw [map_trim_pieces_append_right fun c hc => ⟨hafter c hc, h c (hafter c hc)⟩,
    map_trim_pieces_append_left fun c hc => ⟨hbefore c hc, h c (hbefore c hc)⟩]

end Predictive.Text
