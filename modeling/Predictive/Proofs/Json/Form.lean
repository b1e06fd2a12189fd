-- SUMMARY: What it means that a JSON form reads back, and how records and lists do it.
import Mathlib.Data.List.Nodup
import Predictive.Json.Form
import Predictive.Proofs.Json.RoundTrip

/-!
# Faithful forms

A form is faithful to a set of values if those are read back from their written forms and no other
value is ever read. The second half is what makes the many spellings of a value harmless: whatever
was accepted is in the set, so that writing it gives a spelling from which it is read again.
-/

namespace Predictive

namespace Json

/-! ## Records -/

theorem find?_key {fields : List (String × Json)} {name : String} {value : Json}
    (hnodup : (fields.map Prod.fst).Nodup) (hmem : (name, value) ∈ fields) :
    (fields.map fun (key, value) => (some key, value)).find? (fun (key, _) => key == some name) =
      some (some name, value) := by
  induction fields with
  | nil => cases hmem
  | cons field fields ih =>
    obtain ⟨key, value'⟩ := field
    obtain ⟨hfresh, hnodup⟩ := List.nodup_cons.1 hnodup
    rcases List.mem_cons.1 hmem with heq | hmem
    · cases heq
      simp
    · have hne : key ≠ name := by
        rintro rfl
        exact hfresh (List.mem_map.2 ⟨_, hmem, rfl⟩)
      rw [List.map_cons, List.find?_cons_of_neg (by simpa using hne), ih hnodup hmem]

/-- A record whose fields have different names has the values that it was made of. -/
theorem fields?_record (fields : List (String × Json)) (hnodup : (fields.map Prod.fst).Nodup) :
    (record fields).fields? (fields.map Prod.fst) =
      some (fields.map fun field => some field.2) := by
  have hkeys : (fields.map fun (key, value) => (some key, value)).all
      (fun ((key : Option String), _) => key.isSome) = true := by simp
  have honce : (fields.map Prod.fst).all (fun name => decide ((fields.map fun (key, value) =>
      (some key, value)).countP (fun (key, _) => key == some name) ≤ 1)) = true := by
    refine List.all_eq_true.2 fun name _ => decide_eq_true ?_
    have hcount := List.nodup_iff_count_le_one.1 hnodup name
    rw [List.count, List.countP_map] at hcount
    rw [List.countP_map]
    simpa [Function.comp_def] using hcount
  rw [record, fields?, if_pos (by rw [hkeys, honce]; rfl), List.map_map, Option.some_inj]
  refine List.map_congr_left fun field hfield => ?_
  rw [Function.comp_apply, find?_key hnodup hfield, Option.map_some]

variable {first second third : String} {a b c : Json}

theorem field?_record (name : String) (a : Json) : (record [(name, a)]).field? name = some a := by
  have hfields := fields?_record [(name, a)] (by simp)
  simp only [List.map_cons, List.map_nil] at hfields
  rw [field?, hfields]

theorem twoFields?_record (h : first ≠ second) :
    (record [(first, a), (second, b)]).twoFields? first second = some (a, b) := by
  have hfields := fields?_record [(first, a), (second, b)] (by simpa using h)
  simp only [List.map_cons, List.map_nil] at hfields
  rw [twoFields?, hfields]

theorem threeFields?_record (hfirst : first ≠ second) (hsecond : second ≠ third)
    (hthird : first ≠ third) :
    (record [(first, a), (second, b), (third, c)]).threeFields? first second third =
      some (a, b, c) := by
  have hfields := fields?_record [(first, a), (second, b), (third, c)]
    (by simp [hfirst, hsecond, hthird])
  simp only [List.map_cons, List.map_nil] at hfields
  rw [threeFields?, hfields]

end Json

namespace JsonForm

/-! ## Faithful forms -/

/-- The form writes and reads the values that have the property, and reads no others. -/
structure Faithful (α : Type) [JsonForm α] (P : α → Prop) : Prop where
  reads : ∀ {a : α}, P a → ofJson? (toJson a) = some a
  only : ∀ {j : Json} {a : α}, ofJson? j = some a → P a

/-- Documents are read back. Each value that has the property is read from the document written for
    it. A value that was read from any document has the property, so it is read again from the one
    written for it. -/
structure ReadsBack (α : Type) [JsonForm α] (P : α → Prop) : Prop where
  written : ∀ a : α, P a → ofDocument? (toDocument a) = some a
  rewritten : ∀ (document : String) (a : α), ofDocument? document = some a →
    P a ∧ ofDocument? (toDocument a) = some a

variable {α : Type} [JsonForm α] {P : α → Prop}

theorem ofDocument?_toDocument (a : α) :
    (ofDocument? (toDocument a) : Option α) = ofJson? (toJson a) := by
  rw [ofDocument?, toDocument, Json.parse?_render, Option.bind_some]

theorem Faithful.readsBack (h : Faithful α P) : ReadsBack α P where
  written a ha := by rw [ofDocument?_toDocument, h.reads ha]
  rewritten document a hread := by
    obtain ⟨j, -, hread⟩ := Option.bind_eq_some_iff.1 hread
    exact ⟨h.only hread, by rw [ofDocument?_toDocument, h.reads (h.only hread)]⟩

/-! ## Lists -/

theorem mapM_toJson (h : Faithful α P) {as : List α} (has : ∀ a ∈ as, P a) :
    (as.map toJson).mapM ofJson? = some as := by
  induction as with
  | nil => rfl
  | cons a as ih =>
    obtain ⟨ha, has⟩ := List.forall_mem_cons.1 has
    simp [List.mapM_cons, h.reads ha, ih has]

theorem of_mapM_ofJson? (h : Faithful α P) {items : List Json} {as : List α}
    (hread : items.mapM ofJson? = some as) : ∀ a ∈ as, P a := by
  induction items generalizing as with
  | nil =>
    cases hread
    simp
  | cons item items ih =>
    simp only [List.mapM_cons, Option.bind_eq_bind, Option.bind_eq_some_iff, Option.pure_def,
      Option.some.injEq] at hread
    obtain ⟨a, ha, as, has, rfl⟩ := hread
    exact List.forall_mem_cons.2 ⟨h.only ha, ih has⟩

/-- A list is written item by item. -/
theorem Faithful.list (h : Faithful α P) : Faithful (List α) fun as => ∀ a ∈ as, P a where
  reads has := mapM_toJson h has
  only {j as} hread := by
    cases j with
    | array items => exact of_mapM_ofJson? h hread
    | _ => cases hread

end JsonForm

end Predictive
