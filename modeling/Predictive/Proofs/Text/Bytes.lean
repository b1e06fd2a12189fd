-- SUMMARY: The bytes of a text in UTF-8 are ordered as its characters are, and begin with the bytes of its beginnings.
import Mathlib.Order.Basic
import Mathlib.Data.Char

/-!
# Bytes

The bytes of two different characters differ at a place that both have, and there the lesser
character has the lesser byte: the first byte grows with the number of bytes, and the bytes after it
hold the digits of the character, the highest first. Hence texts can be compared, and looked at for
their beginnings, by bytes and by characters alike.
-/

namespace Predictive.Text

/-- The bytes of a text in UTF-8. -/
def bytes (s : String) : List UInt8 := s.toByteArray.data.toList

theorem bytes_eq_flatMap (s : String) : bytes s = s.toList.flatMap String.utf8EncodeChar := by
  rw [bytes, ← String.utf8Encode_toList, List.utf8Encode, List.toList_data_toByteArray]

/-! ## Rows that part -/

/-- At the first place where the rows differ, both have a byte, and the first row has the lesser
    one. -/
inductive Diverges : List UInt8 → List UInt8 → Prop
  | here {x y : UInt8} {xs ys : List UInt8} (h : x < y) : Diverges (x :: xs) (y :: ys)
  | there (x : UInt8) {xs ys : List UInt8} (h : Diverges xs ys) : Diverges (x :: xs) (x :: ys)

namespace Diverges

variable {xs ys : List UInt8} (h : Diverges xs ys) (s t : List UInt8)
include h

theorem append_lt_append : xs ++ s < ys ++ t := by
  induction h with
  | here h => exact List.cons_lt_cons_iff.2 (.inl h)
  | there x _ ih => exact List.cons_lt_cons_iff.2 (.inr ⟨rfl, ih⟩)

theorem not_append_lt_append : ¬ ys ++ t < xs ++ s :=
  List.lt_asymm (h.append_lt_append s t)

theorem not_isPrefix : ¬ xs ++ s <+: ys ++ t := by
  rintro ⟨r, hr⟩
  have hlt : xs ++ (s ++ r) < ys ++ t := h.append_lt_append (s ++ r) t
  rw [← List.append_assoc, hr] at hlt
  exact List.lt_irrefl _ hlt

theorem not_isPrefix_symm : ¬ ys ++ t <+: xs ++ s := by
  rintro ⟨r, hr⟩
  have hlt : xs ++ s < ys ++ (t ++ r) := h.append_lt_append s (t ++ r)
  rw [← List.append_assoc, hr] at hlt
  exact List.lt_irrefl _ hlt

end Diverges

/-! ## The bytes of a character -/

variable {v w : Nat} {xs ys : List UInt8}

theorem diverges_ofNat (h : v < w) (hw : w < 256) :
    Diverges (UInt8.ofNat v :: xs) (UInt8.ofNat w :: ys) := by
  refine .here (UInt8.lt_iff_toNat_lt.2 ?_)
  rw [UInt8.toNat_ofNat', UInt8.toNat_ofNat']
  omega

/-- The first digits decide, unless they are the same. -/
theorem diverges_cons (hle : v ≤ w) (hrest : v = w → Diverges xs ys) (hw : w < 256) :
    Diverges (UInt8.ofNat v :: xs) (UInt8.ofNat w :: ys) := by
  rcases Nat.lt_or_eq_of_le hle with hlt | rfl
  · exact diverges_ofNat hlt hw
  · exact .there _ (hrest rfl)

theorem diverges_one (h : v % 64 < w % 64) :
    Diverges [UInt8.ofNat (v % 64 + 128)] [UInt8.ofNat (w % 64 + 128)] :=
  diverges_ofNat (by omega) (by omega)

theorem diverges_two (h : v % 4096 < w % 4096) :
    Diverges [UInt8.ofNat (v / 64 % 64 + 128), UInt8.ofNat (v % 64 + 128)]
      [UInt8.ofNat (w / 64 % 64 + 128), UInt8.ofNat (w % 64 + 128)] :=
  diverges_cons (by omega) (fun heq => diverges_one (by omega)) (by omega)

theorem diverges_three (h : v % 262144 < w % 262144) :
    Diverges
      [UInt8.ofNat (v / 4096 % 64 + 128), UInt8.ofNat (v / 64 % 64 + 128),
        UInt8.ofNat (v % 64 + 128)]
      [UInt8.ofNat (w / 4096 % 64 + 128), UInt8.ofNat (w / 64 % 64 + 128),
        UInt8.ofNat (w % 64 + 128)] :=
  diverges_cons (by omega) (fun heq => diverges_two (by omega)) (by omega)

/-- A lesser character has as many bytes, or fewer and then a lesser first byte. -/
theorem diverges_utf8EncodeChar {c d : Char} (h : c < d) :
    Diverges (String.utf8EncodeChar c) (String.utf8EncodeChar d) := by
  have hlt : c.val.toNat < d.val.toNat := UInt32.lt_iff_toNat_lt.1 h
  have hd : d.val.toNat < 0x110000 := by
    have hvalid := d.valid
    simp only [UInt32.isValidChar, Nat.isValidChar] at hvalid
    omega
  unfold String.utf8EncodeChar
  dsimp only
  generalize c.val.toNat = v at hlt
  generalize d.val.toNat = w at hlt hd
  -- By the number of bytes of the lesser character; the greater one cannot have fewer.
  rcases (by omega : v ≤ 127 ∨ ¬ v ≤ 127 ∧ v ≤ 2047 ∨ ¬ v ≤ 127 ∧ ¬ v ≤ 2047 ∧ v ≤ 65535 ∨
    ¬ v ≤ 127 ∧ ¬ v ≤ 2047 ∧ ¬ v ≤ 65535) with hv | ⟨hv, hv'⟩ | ⟨hv, hv', hv''⟩ | ⟨hv, hv', hv''⟩
  · rw [if_pos hv]
    split_ifs <;> exact diverges_ofNat (by omega) (by omega)
  · rw [if_neg hv, if_pos hv', if_neg (by omega : ¬ w ≤ 127)]
    split_ifs
    · exact diverges_cons (by omega) (fun heq => diverges_one (by omega)) (by omega)
    · exact diverges_ofNat (by omega) (by omega)
    · exact diverges_ofNat (by omega) (by omega)
  · rw [if_neg hv, if_neg hv', if_pos hv'', if_neg (by omega : ¬ w ≤ 127),
      if_neg (by omega : ¬ w ≤ 2047)]
    split_ifs
    · exact diverges_cons (by omega) (fun heq => diverges_two (by omega)) (by omega)
    · exact diverges_ofNat (by omega) (by omega)
  · rw [if_neg hv, if_neg hv', if_neg hv'', if_neg (by omega : ¬ w ≤ 127),
      if_neg (by omega : ¬ w ≤ 2047), if_neg (by omega : ¬ w ≤ 65535)]
    exact diverges_cons (by omega) (fun heq => diverges_three (by omega)) (by omega)

/-! ## Texts -/

theorem append_lt_append_iff (p s t : List UInt8) : p ++ s < p ++ t ↔ s < t := by
  induction p with
  | nil => rfl
  | cons x p ih => simp [ih]

theorem flatMap_utf8EncodeChar_lt_iff (cs ds : List Char) :
    cs.flatMap String.utf8EncodeChar < ds.flatMap String.utf8EncodeChar ↔ cs < ds := by
  induction cs generalizing ds with
  | nil =>
    cases ds with
    | nil => simp
    | cons d ds =>
      have hne : String.utf8EncodeChar d ≠ [] := String.utf8EncodeChar_ne_nil
      obtain ⟨x, xs, hx⟩ := List.exists_cons_of_ne_nil hne
      simp [hx]
  | cons c cs ih =>
    cases ds with
    | nil => simp
    | cons d ds =>
      rw [List.flatMap_cons, List.flatMap_cons, List.cons_lt_cons_iff]
      rcases lt_trichotomy c d with hlt | rfl | hgt
      · exact iff_of_true ((diverges_utf8EncodeChar hlt).append_lt_append _ _) (.inl hlt)
      · rw [append_lt_append_iff, ih]
        simp
      · refine iff_of_false ((diverges_utf8EncodeChar hgt).not_append_lt_append _ _) ?_
        rintro (hlt | ⟨rfl, -⟩)
        · exact lt_asymm hlt hgt
        · exact lt_irrefl _ hgt

theorem flatMap_utf8EncodeChar_prefix_iff (cs ds : List Char) :
    cs.flatMap String.utf8EncodeChar <+: ds.flatMap String.utf8EncodeChar ↔ cs <+: ds := by
  induction cs generalizing ds with
  | nil => simp
  | cons c cs ih =>
    cases ds with
    | nil => simp
    | cons d ds =>
      rw [List.flatMap_cons, List.flatMap_cons, List.cons_prefix_cons]
      rcases lt_trichotomy c d with hlt | rfl | hgt
      · exact iff_of_false ((diverges_utf8EncodeChar hlt).not_isPrefix _ _) fun h => hlt.ne h.1
      · rw [List.prefix_append_right_inj, ih]
        simp
      · exact iff_of_false ((diverges_utf8EncodeChar hgt).not_isPrefix_symm _ _)
          fun h => hgt.ne' h.1

theorem bytes_lt_iff (s t : String) : bytes s < bytes t ↔ s < t := by
  rw [bytes_eq_flatMap, bytes_eq_flatMap, flatMap_utf8EncodeChar_lt_iff, String.lt_iff]

theorem compare_eq_lt_iff_bytes {s t : String} : compare s t = .lt ↔ bytes s < bytes t := by
  rw [bytes_lt_iff]
  exact compareOfLessAndEq_eq_lt

theorem bytes_prefix_iff (s t : String) : bytes s <+: bytes t ↔ s.toList <+: t.toList := by
  rw [bytes_eq_flatMap, bytes_eq_flatMap, flatMap_utf8EncodeChar_prefix_iff]

end Predictive.Text
