-- SUMMARY: Texts without line breaks, texts that show something, and texts that no blank divides.
import Predictive.Proofs.Text

/-!
# Texts in one line

A line break is a blank other than the space. What is put together from texts without line breaks,
by writing them one after the other or with separators, has no line break either.
-/

namespace Predictive.Text

/-- The only blank in the text is the space, so there is no line break in it. -/
def Inline (s : String) : Prop :=
  ∀ c ∈ s.toList, isBlank c = true → c = ' '

instance : DecidablePred Inline := fun s =>
  decidable_of_iff (s.toList.all fun c => !isBlank c || c == ' ') (by
    simp only [Inline, List.all_eq_true, Bool.or_eq_true, Bool.not_eq_true', beq_iff_eq,
      ← Bool.not_eq_true, imp_iff_not_or])

/-- The text is more than blanks. -/
def Visible (s : String) : Prop :=
  ∃ c ∈ s.toList, isBlank c = false

instance : DecidablePred Visible := fun s =>
  decidable_of_iff (s.toList.any fun c => !isBlank c) (by
    simp only [Visible, List.any_eq_true, Bool.not_eq_true'])

/-- The text is a single word. -/
structure Unbroken (s : String) : Prop where
  nonempty : s.toList ≠ []
  noBlank : ∀ c ∈ s.toList, isBlank c = false

instance : DecidablePred Unbroken := fun s =>
  decidable_of_iff (!s.toList.isEmpty && s.toList.all fun c => !isBlank c) (by
    simp only [Bool.and_eq_true, Bool.not_eq_true', List.isEmpty_eq_false_iff, List.all_eq_true]
    exact ⟨fun h => ⟨h.1, h.2⟩, fun h => ⟨h.nonempty, h.noBlank⟩⟩)

variable {s t between : String} {texts : List String}

/-! ## Line breaks -/

theorem Inline.append (hs : Inline s) (ht : Inline t) : Inline (s ++ t) := by
  intro c hc
  rw [String.toList_append] at hc
  exact (List.mem_append.1 hc).elim (hs c) (ht c)

theorem inline_join (h : ∀ text ∈ texts, Inline text) : Inline (String.join texts) := by
  intro c hc
  rw [String.toList_join] at hc
  obtain ⟨text, htext, hc⟩ := List.mem_flatMap.1 hc
  exact h text htext c hc

theorem inline_intercalate (hbetween : Inline between) (h : ∀ text ∈ texts, Inline text) :
    Inline (String.intercalate between texts) := by
  rw [Inline, String.toList_intercalate]
  exact forall_mem_intercalate hbetween (List.forall_mem_map.2 h)

/-! ## Blanks alone -/

theorem Visible.append (hs : Visible s) (t : String) : Visible (s ++ t) := by
  obtain ⟨c, hc, hblank⟩ := hs
  exact ⟨c, by simp [hc], hblank⟩

/-- The first of several texts is enough. -/
theorem visible_intercalate (hs : Visible s) (between : String) (texts : List String) :
    Visible (String.intercalate between (s :: texts)) := by
  obtain ⟨c, hc, hblank⟩ := hs
  refine ⟨c, ?_, hblank⟩
  rw [String.toList_intercalate]
  cases texts <;> simp [List.intercalate_cons_cons, hc]

/-! ## Words -/

theorem Unbroken.inline (h : Unbroken s) : Inline s := by
  intro c hc hblank
  rw [h.noBlank c hc] at hblank
  cases hblank

theorem Unbroken.visible (h : Unbroken s) : Visible s := by
  obtain ⟨c, hc⟩ := List.exists_mem_of_ne_nil _ h.nonempty
  exact ⟨c, hc, h.noBlank c hc⟩

theorem Unbroken.append (hs : Unbroken s) (ht : Unbroken t) : Unbroken (s ++ t) where
  nonempty := by simp [hs.nonempty]
  noBlank c hc := by
    rw [String.toList_append] at hc
    exact (List.mem_append.1 hc).elim (hs.noBlank c) (ht.noBlank c)

theorem isBlank_of_isDigit {c : Char} (h : c.isDigit = true) : isBlank c = false := by
  simp only [Char.isDigit, Bool.and_eq_true, decide_eq_true_eq, ge_iff_le, UInt32.le_iff_toNat_le]
    at h
  obtain ⟨hlow, hhigh⟩ := h
  change 48 ≤ c.toNat at hlow
  change c.toNat ≤ 57 at hhigh
  simp [isBlank, blankRanges]
  omega

theorem unbroken_toString (n : Nat) : Unbroken (toString n) where
  nonempty := by simp [Nat.toDigits_ne_nil]
  noBlank c hc := by
    rw [Nat.toString_eq_repr, Nat.toList_repr] at hc
    exact isBlank_of_isDigit (Nat.isDigit_of_mem_toDigits (by decide) (by decide) hc)

end Predictive.Text
