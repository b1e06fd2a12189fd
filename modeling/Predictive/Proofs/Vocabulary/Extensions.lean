-- SUMMARY: Looking at the least name that is not below a text is as good as looking at all names, in the order of bytes.
import Predictive.Proofs.Text.Bytes
import Predictive.Proofs.Vocabulary.Names

/-!
# Extensions

A vocabulary lists its names in the order of their bytes. Whether some name begins with a text is
decided by a single name, the least one that is not below the text: if any name begins with the
text, this one does.
-/

namespace Predictive.Vocabulary

open Text (bytes bytes_lt_iff bytes_prefix_iff compare_eq_lt_iff_bytes)

/-- Of the names that are not below the text, in the order of bytes, this is the least. -/
structure LeastFrom (v : Vocabulary) (text name : String) : Prop where
  mem : name ∈ v
  not_below : ¬ bytes name < bytes text
  least : ∀ other ∈ v, ¬ bytes other < bytes text → ¬ bytes other < bytes name

variable {v : Vocabulary} {text name : String}

/-! ## The order of names -/

theorem isGE_compare_iff_bytes : (compare name text).isGE = true ↔ ¬ bytes name < bytes text := by
  rw [Ordering.isGE_iff_ne_lt, compare_eq_lt_iff_bytes]

theorem pairwise_bytes_keys (v : Vocabulary) :
    v.keys.Pairwise fun a b => bytes a < bytes b :=
  Std.ExtTreeMap.ordered_keys.imp compare_eq_lt_iff_bytes.1

/-! ## The name that decides -/

/-- Before the first name that is not below the text there are lesser ones only, and after it
    greater ones only. -/
theorem leastFrom_of_find? (h : v.keys.find? (fun name => (compare name text).isGE) = some name) :
    LeastFrom v text name := by
  obtain ⟨hge, before, after, hkeys, hbefore⟩ := List.find?_eq_some_iff_append.1 h
  have hordered := List.pairwise_append.1 (hkeys ▸ pairwise_bytes_keys v)
  refine ⟨Std.ExtTreeMap.mem_keys.1 (by simp [hkeys]), isGE_compare_iff_bytes.1 hge, ?_⟩
  intro other hother hfrom
  have hmem : other ∈ before ++ name :: after := hkeys ▸ Std.ExtTreeMap.mem_keys.2 hother
  rcases List.mem_append.1 hmem with hmem | hmem
  · have hbelow := hbefore other hmem
    rw [isGE_compare_iff_bytes.2 hfrom] at hbelow
    cases hbelow
  · rcases List.mem_cons.1 hmem with rfl | hmem
    · exact List.lt_irrefl _
    · exact List.lt_asymm (List.rel_of_pairwise_cons hordered.2.1 hmem)

theorem LeastFrom.eq {other : String} (h : LeastFrom v text name) (h' : LeastFrom v text other) :
    name = other := by
  have hlt : ¬ name < other := fun hlt => h'.least _ h.mem h.not_below ((bytes_lt_iff _ _).2 hlt)
  have hgt : ¬ other < name := fun hgt => h.least _ h'.mem h'.not_below ((bytes_lt_iff _ _).2 hgt)
  exact String.le_antisymm (String.not_lt.1 hgt) (String.not_lt.1 hlt)

theorem find?_keys_eq_some_iff :
    v.keys.find? (fun name => (compare name text).isGE) = some name ↔ LeastFrom v text name := by
  refine ⟨leastFrom_of_find?, fun h => ?_⟩
  cases hfound : v.keys.find? fun name => (compare name text).isGE with
  | none =>
    exact absurd (isGE_compare_iff_bytes.2 h.not_below)
      (List.find?_eq_none.1 hfound name (Std.ExtTreeMap.mem_keys.2 h.mem))
  | some other => rw [(leastFrom_of_find? hfound).eq h]

theorem canExtend_iff_leastFrom :
    v.canExtend text = true ↔ ∃ name, LeastFrom v text name ∧ bytes text <+: bytes name := by
  simp only [← find?_keys_eq_some_iff, bytes_prefix_iff]
  unfold canExtend
  cases v.keys.find? fun name => (compare name text).isGE <;> simp

/-! ## All names at once -/

/-- The least name not below a text, in the order of bytes, is the only one that is looked at, and
    it begins with the text just if some name does. -/
theorem canExtend_scans (v : Vocabulary) (text : String) :
    v.keys.Pairwise (fun a b => bytes a < bytes b) ∧
      (v.canExtend text = true ↔
        ∃ name, LeastFrom v text name ∧ bytes text <+: bytes name) ∧
      (v.canExtend text = true ↔ ∃ name ∈ v, bytes text <+: bytes name) := by
  refine ⟨pairwise_bytes_keys v, canExtend_iff_leastFrom, ?_⟩
  simp only [bytes_prefix_iff]
  exact canExtend_iff v text

end Predictive.Vocabulary
