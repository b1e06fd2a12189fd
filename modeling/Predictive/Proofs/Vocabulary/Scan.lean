-- SUMMARY: How a scan goes through its input: over blanks and tokens, up to the end or to a text that blocks it.
import Mathlib.Data.List.Infix
import Predictive.Proofs.Vocabulary.Names

/-!
# Scans

A scan takes its input apart into pieces. A piece is a blank or a token, which is a name without a
blank that no shorter name begins. Where no piece comes next, the input is at its end or goes on
with a text that blocks the scan: one without a blank that no name begins, and that either begins no
name itself or ends too early.
-/

namespace Predictive

/-- The scan that finds these lexemes before it goes on. -/
def Scan.prepend (scan : Scan) (ls : List Lexeme) : Scan :=
  { scan with lexemes := ls ++ scan.lexemes }

namespace Vocabulary

/-- A name that a scan can find: it is not empty, has no blank, and none of its proper parts at the
    beginning is a name. -/
structure IsToken (IsName : String → Prop) (name : String) : Prop where
  isName : IsName name
  nonempty : name.toList ≠ []
  noBlank : ∀ c ∈ name.toList, Text.isBlank c = false
  minimal : ∀ part, part <+: name.toList → part ≠ [] → part ≠ name.toList →
    ¬ IsName (String.ofList part)

/-- A text at which a scan stops when `after` comes behind it. -/
structure Blocks (IsName : String → Prop) (text after : List Char) : Prop where
  nonempty : text ≠ []
  noBlank : ∀ c ∈ text, Text.isBlank c = false
  unnamed : ∀ part, part <+: text → part ≠ [] → ¬ IsName (String.ofList part)
  opens : ∀ part, part <+: text → part ≠ [] → part ≠ text → Opens IsName part
  ends : ¬ Opens IsName text ∨ Opens IsName text ∧ ∀ c ∈ after.head?, Text.isBlank c = true

-- The blanks are looked for by a run through the text, since a quantifier over characters may be
-- decided by trying all characters that there are.

instance (IsName : String → Prop) [DecidablePred IsName] (name : String) :
    Decidable (IsToken IsName name) :=
  decidable_of_iff (IsName name ∧ name.toList ≠ [] ∧ name.toList.any Text.isBlank = false ∧
      ∀ part ∈ name.toList.inits, part ≠ [] → part ≠ name.toList →
        ¬ IsName (String.ofList part)) <| by
    simp only [List.mem_inits, List.any_eq_false, Bool.not_eq_true]
    exact ⟨fun ⟨isName, nonempty, noBlank, minimal⟩ => ⟨isName, nonempty, noBlank, minimal⟩,
      fun h => ⟨h.isName, h.nonempty, h.noBlank, h.minimal⟩⟩

instance (IsName : String → Prop) [DecidablePred IsName] [DecidablePred (Opens IsName)]
    (text after : List Char) : Decidable (Blocks IsName text after) :=
  decidable_of_iff (text ≠ [] ∧ text.any Text.isBlank = false ∧
      (∀ part ∈ text.inits, part ≠ [] → ¬ IsName (String.ofList part)) ∧
      (∀ part ∈ text.inits, part ≠ [] → part ≠ text → Opens IsName part) ∧
      (¬ Opens IsName text ∨ Opens IsName text ∧ after.head?.all Text.isBlank = true)) <| by
    simp only [List.mem_inits, List.any_eq_false, Bool.not_eq_true, Option.all_eq_true]
    exact ⟨fun ⟨nonempty, noBlank, unnamed, opens, ends⟩ =>
        ⟨nonempty, noBlank, unnamed, opens, ends⟩,
      fun h => ⟨h.nonempty, h.noBlank, h.unnamed, h.opens, h.ends⟩⟩

variable {v : Vocabulary} {text after init part rest : List Char} {c : Char} {name : String}
  {x : Symbol} {begin offset : Nat}

/-! ## Bytes -/

/-- The number of bytes that the text takes up. -/
def byteSize (text : List Char) : Nat := (String.ofList text).utf8ByteSize

@[simp] theorem byteSize_nil : byteSize [] = 0 := rfl

@[simp] theorem byteSize_append (text more : List Char) :
    byteSize (text ++ more) = byteSize text + byteSize more := by
  rw [byteSize, String.ofList_append, String.utf8ByteSize_append, byteSize, byteSize]

@[simp] theorem byteSize_singleton (c : Char) : byteSize [c] = c.utf8Size :=
  String.utf8ByteSize_singleton

theorem byteSize_cons (c : Char) (text : List Char) :
    byteSize (c :: text) = c.utf8Size + byteSize text := by
  rw [← List.singleton_append, byteSize_append, byteSize_singleton]

theorem byteSize_toList (s : String) : byteSize s.toList = s.utf8ByteSize := by
  rw [byteSize, String.ofList_toList]

/-! ## Texts that are being read -/

/-- What a scan reads without coming to a decision: it has no blank, and all of its parts begin a
    name but are none. -/
structure Pending (v : Vocabulary) (text : List Char) : Prop where
  noBlank : ∀ c ∈ text, Text.isBlank c = false
  parts : ∀ part, part <+: text → part ≠ [] → String.ofList part ∉ v ∧ Opens (· ∈ v) part

theorem Pending.nil : Pending v [] :=
  ⟨by simp, fun _ hpart hne => absurd (List.prefix_nil.1 hpart) hne⟩

/-- A text whose proper parts begin names but are none was being read up to its last character. -/
theorem exists_pending (hne : text ≠ []) (hnoBlank : ∀ c ∈ text, Text.isBlank c = false)
    (hproper : ∀ part, part <+: text → part ≠ [] → part ≠ text →
      String.ofList part ∉ v ∧ Opens (· ∈ v) part) :
    ∃ init c, text = init ++ [c] ∧ Text.isBlank c = false ∧ Pending v init := by
  obtain ⟨init, c, rfl⟩ := (List.eq_nil_or_concat' text).resolve_left hne
  obtain ⟨hnoBlank, hc⟩ := List.forall_mem_append.1 hnoBlank
  refine ⟨init, c, rfl, hc c (by simp), hnoBlank, fun part hpart hne => ?_⟩
  have hshorter : part ≠ init ++ [c] := by
    rintro rfl
    exact absurd hpart.length_le (by simp)
  exact hproper part (hpart.trans (List.prefix_append _ _)) hne hshorter

theorem IsToken.exists_pending (h : IsToken (· ∈ v) name) :
    ∃ init c, name.toList = init ++ [c] ∧ Text.isBlank c = false ∧ Pending v init :=
  Vocabulary.exists_pending h.nonempty h.noBlank fun part hpart hne hshorter =>
    ⟨h.minimal part hpart hne hshorter, name, h.isName, hpart⟩

theorem Blocks.exists_pending (h : Blocks (· ∈ v) text after) :
    ∃ init c, text = init ++ [c] ∧ Text.isBlank c = false ∧ Pending v init :=
  Vocabulary.exists_pending h.nonempty h.noBlank fun part hpart hne hshorter =>
    ⟨h.unnamed part hpart hne, h.opens part hpart hne hshorter⟩

/-- Behind a text that is being read comes a token, a longer text that is being read, or one that
    blocks the scan. -/
theorem Pending.push (h : Pending v text) (hc : Text.isBlank c = false) :
    IsToken (· ∈ v) (String.ofList (text ++ [c])) ∨ Pending v (text ++ [c]) ∨
      ∀ after, Blocks (· ∈ v) (text ++ [c]) after := by
  have hnoBlank : ∀ d ∈ text ++ [c], Text.isBlank d = false :=
    List.forall_mem_append.2 ⟨h.noBlank, by simpa using hc⟩
  have hproper : ∀ part, part <+: text ++ [c] → part ≠ [] → part ≠ text ++ [c] →
      String.ofList part ∉ v ∧ Opens (· ∈ v) part := fun part hpart hne hlast =>
    h.parts part ((List.prefix_concat_iff.1 hpart).resolve_left hlast) hne
  by_cases hname : String.ofList (text ++ [c]) ∈ v
  · refine .inl ⟨hname, by simp, by simpa using hnoBlank, ?_⟩
    simpa using fun part hpart hne hlast => (hproper part hpart hne hlast).1
  have hunnamed : ∀ part, part <+: text ++ [c] → part ≠ [] → String.ofList part ∉ v := by
    intro part hpart hne
    by_cases hlast : part = text ++ [c]
    · rwa [hlast]
    · exact (hproper part hpart hne hlast).1
  by_cases hopens : Opens (· ∈ v) (text ++ [c])
  · refine .inr (.inl ⟨hnoBlank, fun part hpart hne => ⟨hunnamed part hpart hne, ?_⟩⟩)
    by_cases hlast : part = text ++ [c]
    · rwa [hlast]
    · exact (hproper part hpart hne hlast).2
  · exact .inr (.inr fun after => ⟨by simp, hnoBlank, hunnamed,
      fun part hpart hne hlast => (hproper part hpart hne hlast).2, .inl hopens⟩)

/-- A text that is being read blocks the scan where it cannot go on. -/
theorem Pending.blocks (h : Pending v text) (hne : text ≠ [])
    (hafter : ∀ c ∈ after.head?, Text.isBlank c = true) : Blocks (· ∈ v) text after :=
  ⟨hne, h.noBlank, fun part hpart hne => (h.parts part hpart hne).1,
    fun part hpart hne _ => (h.parts part hpart hne).2,
    .inr ⟨(h.parts text (List.prefix_refl _) hne).2, hafter⟩⟩

/-! ## What comes next -/

/-- Behind a text that is being read, the input comes to a token or is blocked. -/
theorem Pending.exists_token_or_blocks (h : Pending v text) (hne : text ≠ []) (rest : List Char) :
    (∃ name after, text ++ rest = name.toList ++ after ∧ IsToken (· ∈ v) name) ∨
      ∃ text' after, text ++ rest = text' ++ after ∧ Blocks (· ∈ v) text' after := by
  induction rest generalizing text with
  | nil => exact .inr ⟨text, [], rfl, h.blocks hne (by simp)⟩
  | cons c rest ih =>
    by_cases hc : Text.isBlank c = true
    · exact .inr ⟨text, c :: rest, rfl, h.blocks hne (by simpa using hc)⟩
    · rw [List.append_cons]
      rcases h.push (Bool.eq_false_iff.2 hc) with htoken | hpending | hblocks
      · exact .inl ⟨_, rest, by rw [String.toList_ofList], htoken⟩
      · exact ih hpending (by simp)
      · exact .inr ⟨_, rest, rfl, hblocks rest⟩

/-! ## Scanning -/

/-- A scan goes through a text that is being read. -/
theorem scanFrom_pending (h : Pending v (text ++ init)) (begin offset : Nat) (rest : List Char) :
    v.scanFrom text begin offset (init ++ rest) =
      v.scanFrom (text ++ init) begin (offset + byteSize init) rest := by
  induction init generalizing text offset with
  | nil => simp
  | cons c init ih =>
    rw [List.append_cons] at h ⊢
    have hc : Text.isBlank c = false := h.noBlank c (by simp)
    have hpart : text ++ [c] <+: text ++ [c] ++ init := List.prefix_append _ _
    obtain ⟨hname, hopens⟩ := h.parts _ hpart (by simp)
    have hget : v[String.ofList (text ++ [c])]? = none := Std.ExtTreeMap.getElem?_eq_none hname
    have hextend : v.canExtend (String.ofList (text ++ [c])) = true :=
      (canExtend_iff v _).2 (by simpa using hopens)
    rw [List.cons_append, scanFrom]
    simp only [hc, hget, hextend, Bool.false_eq_true, if_false, if_true]
    rw [ih h, byteSize_cons, Nat.add_assoc]

theorem scanFrom_start (h : Pending v init) (begin : Nat) (rest : List Char) :
    v.scanFrom [] begin begin (init ++ rest) =
      v.scanFrom init begin (begin + byteSize init) rest := by
  have h : Pending v ([] ++ init) := h
  exact scanFrom_pending h begin begin rest

/-- A scan finds the token that comes next. -/
theorem scanFrom_token (h : IsToken (· ∈ v) name) (hx : v[name]? = some x) (begin : Nat)
    (rest : List Char) :
    v.scanFrom [] begin begin (name.toList ++ rest) =
      (v.scanFrom [] (begin + name.utf8ByteSize) (begin + name.utf8ByteSize) rest).prepend
        [⟨name, begin, x⟩] := by
  obtain ⟨init, c, hinit, hc, hpending⟩ := h.exists_pending
  have hname : String.ofList (init ++ [c]) = name := by rw [← hinit, String.ofList_toList]
  have hsize : name.utf8ByteSize = byteSize init + c.utf8Size := by
    rw [← byteSize_toList, hinit, byteSize_append, byteSize_singleton]
  rw [hinit, List.append_assoc, scanFrom_start hpending, List.singleton_append, scanFrom]
  simp only [hc, hname, hx, Bool.false_eq_true, if_false, hsize, Nat.add_assoc, Scan.prepend,
    List.singleton_append]

/-- A scan stops at a text that blocks it. -/
theorem scanFrom_blocks (h : Blocks (· ∈ v) text after) (begin : Nat) :
    v.scanFrom [] begin begin (text ++ after) = ⟨[], some ⟨String.ofList text, begin⟩⟩ := by
  obtain ⟨init, c, rfl, hc, hpending⟩ := h.exists_pending
  have hname : v[String.ofList (init ++ [c])]? = none :=
    Std.ExtTreeMap.getElem?_eq_none (h.unnamed _ (List.prefix_refl _) (by simp))
  rw [List.append_assoc, scanFrom_start hpending, List.singleton_append, scanFrom]
  have hextend := canExtend_iff v (String.ofList (init ++ [c]))
  rw [String.toList_ofList] at hextend
  simp only [hc, hname, Bool.false_eq_true, if_false]
  rcases h.ends with hopens | ⟨hopens, hafter⟩
  · rw [if_neg (mt hextend.1 hopens)]
  · rw [if_pos (hextend.2 hopens)]
    cases after with
    | nil => simp [scanFrom]
    | cons d after =>
      have hd : Text.isBlank d = true := hafter d rfl
      simp [scanFrom, hd]

end Vocabulary

end Predictive
