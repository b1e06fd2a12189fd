-- SUMMARY: The names that a listing can hold, and written productions read back.
import Predictive.Grammar.Display
import Predictive.Grammar.Listing
import Predictive.Proofs.Text

/-!
# Reading what is written

Whatever text is read, a name on the right of an arrow has no blank and no bar in it and is no word
for the empty string, and a name on the left has no blank and no `→` in it. Productions with such
names can be written, one to a line, and are read again as they were: the first `→` of a line is
the one that was written, since `->` is only looked for in a line without it, and bars and further
arrows stand where they cannot be mistaken.
-/

namespace Predictive

/-- How an alternative with the given names is written. -/
def Alternative.plainText (names : List String) : String :=
  if names.isEmpty then epsilonText else String.intercalate " " names

/-- The alternative with the given names, as it is written. -/
def Alternative.plain (names : List String) : Alternative :=
  ⟨Alternative.plainText names, names, []⟩

/-- A production on one line, without its end. -/
def Production.line (p : Production) : String :=
  p.lhs ++ " →" ++ String.intercalate " |" (p.alternatives.map fun a => " " ++ a.text)

/-- What is written between the bars of the line. -/
def Production.texts (p : Production) : List (List Char) :=
  p.alternatives.map fun a => a.text.toList

namespace Listing

/-! ## Names -/

/-- A name that can stand on the right of an arrow. -/
structure IsWord (name : String) : Prop where
  nonempty : name.toList ≠ []
  noBlank : ∀ c ∈ name.toList, Text.isBlank c = false
  noBar : '|' ∉ name.toList
  notEpsilon : isEpsilon name = false

/-- A name that can stand on the left of an arrow. -/
structure IsLhs (name : String) : Prop where
  valid : isValidLhs name.toList = true
  noArrow : '→' ∉ name.toList

theorem IsLhs.nonempty {name : String} (h : IsLhs name) : name.toList ≠ [] := by
  have hvalid := h.valid
  simp only [isValidLhs, Bool.and_eq_true, Bool.not_eq_true', List.isEmpty_eq_false_iff] at hvalid
  exact hvalid.1.1.1

theorem IsLhs.noBlank {name : String} (h : IsLhs name) :
    ∀ c ∈ name.toList, Text.isBlank c = false := by
  have hvalid := h.valid
  simp only [isValidLhs, Bool.and_eq_true, Bool.not_eq_true', List.any_eq_false] at hvalid
  exact fun c hc => by simpa using hvalid.1.1.2 c hc

theorem IsLhs.ne_endOfInputName {name : String} (h : IsLhs name) : name ≠ endOfInputName := by
  have hvalid := h.valid
  simp only [isValidLhs, Bool.and_eq_true, String.ofList_toList, bne_iff_ne] at hvalid
  exact hvalid.1.2

/-- All names of the production are where they can be written. -/
structure Legible (p : Production) : Prop where
  lhs : IsLhs p.lhs
  words : ∀ a ∈ p.alternatives, ∀ name ∈ a.names, IsWord name

variable {text line lhs rhs : List Char} {name : String} {p : Production} {a : Alternative}
  {ps : List Production}

/-! ## What is read -/

theorem isWord_of_mem_readAlternative (hbar : '|' ∉ text)
    (h : name ∈ (readAlternative text).names) : IsWord name := by
  unfold readAlternative at h
  split at h
  · cases h
  · obtain ⟨hword, hepsilon⟩ := List.mem_filter.1 h
    obtain ⟨word, hmem, rfl⟩ := List.mem_map.1 hword
    obtain ⟨hne, hchars⟩ := Text.mem_words hmem
    refine ⟨?_, ?_, ?_, by simpa using hepsilon⟩
    · rwa [String.toList_ofList]
    · rw [String.toList_ofList]
      exact fun c hc => (hchars c hc).2
    · rw [String.toList_ofList]
      exact fun hmem => hbar (hchars _ hmem).1

theorem isWord_of_mem_readAlternatives (ha : a ∈ readAlternatives rhs) (h : name ∈ a.names) :
    IsWord name := by
  obtain ⟨text, htext, rfl⟩ := List.mem_map.1 ha
  obtain ⟨piece, hpiece, rfl⟩ := List.mem_map.1 (List.mem_filter.1 htext).1
  refine isWord_of_mem_readAlternative (fun hbar => ?_) h
  simpa using (Text.mem_of_mem_pieces hpiece (Text.mem_of_mem_trim hbar)).2

theorem splitArrow?_eq (line : List Char) :
    splitArrow? line =
      ((Text.cutAt? ['→'] line).or (Text.cutAt? ['-', '>'] line)).map
        fun (before, after) => (Text.trim before, after) := by
  have harrow : "→".toList = ['→'] := by decide
  have hother : "->".toList = ['-', '>'] := by decide
  simp only [splitArrow?, arrows, List.findSome?_cons, List.findSome?_nil, harrow, hother]
  cases Text.cutAt? ['→'] line <;> cases Text.cutAt? ['-', '>'] line <;> rfl

/-- The arrow `->` is only looked for where there is no `→`, so nothing before the arrow has one. -/
theorem not_mem_of_splitArrow? (h : splitArrow? line = some (lhs, rhs)) : '→' ∉ lhs := by
  rw [splitArrow?_eq] at h
  obtain ⟨⟨before, after⟩, hcut, heq⟩ := Option.map_eq_some_iff.1 h
  cases heq
  refine fun hmem => absurd (Text.mem_of_mem_trim hmem) ?_
  rcases Option.or_eq_some_iff.1 hcut with hfirst | ⟨hnone, hsecond⟩
  · exact Text.not_mem_of_cutAt? hfirst
  · intro hbefore
    refine Text.not_mem_of_cutAt?_eq_none hnone ?_
    rw [Text.eq_of_cutAt? hsecond]
    simp [hbefore]

theorem legible_of_readLine (h : readLine line = .production p) : Legible p := by
  unfold readLine at h
  split at h
  · cases h
  · next lhs rhs hsplit =>
    split at h
    · next hvalid =>
      cases h
      refine ⟨⟨?_, ?_⟩, fun a ha name hname => isWord_of_mem_readAlternatives ha hname⟩
      · rwa [String.toList_ofList]
      · rw [String.toList_ofList]
        exact not_mem_of_splitArrow? hsplit
    · cases h

/-- The production that a trimmed line holds. -/
def production? (line : List Char) : Option Production :=
  if line.isEmpty then none
  else match readLine line with
    | .production p => some p
    | _ => none

/-- The numbers of the lines do not matter for the productions. -/
theorem productions_read (text : List Char) :
    productions (read text) = ((Text.lines text).map Text.trim).filterMap production? := by
  have hnumbers : ∀ lines : List (List Char),
      lines.filterMap production? = (lines.zipIdx 1).filterMap (production? ∘ Prod.fst) := by
    intro lines
    rw [← List.filterMap_map, List.zipIdx_map_fst]
  rw [productions, read, List.filterMap_filterMap, hnumbers]
  refine List.filterMap_congr fun entry _ => ?_
  simp only [Function.comp_apply, production?]
  split <;> rfl

/-- Every production of a text is legible. -/
theorem legible_of_mem_productions (h : p ∈ productions (read text)) : Legible p := by
  rw [productions_read] at h
  obtain ⟨line, -, hline⟩ := List.mem_filterMap.1 h
  rw [production?, Option.ite_none_left_eq_some] at hline
  obtain ⟨-, hline⟩ := hline
  split at hline
  · next hread =>
    cases hline
    exact legible_of_readLine hread
  · cases hline

/-! ## What is written -/

theorem toList_epsilonText : epsilonText.toList = ['ε'] := by decide

section Alternatives

variable {names : List String} (h : ∀ name ∈ names, IsWord name)
include h

theorem solid_plainText : Text.Solid (Alternative.plainText names).toList := by
  unfold Alternative.plainText
  split
  · rw [toList_epsilonText]
    exact .singleton (by decide)
  · next hne =>
    rw [String.toList_intercalate]
    refine .intercalate ?_ (by simpa using hne) _
    intro text htext
    obtain ⟨name, hname, rfl⟩ := List.mem_map.1 htext
    exact .of_forall (h name hname).nonempty (h name hname).noBlank

theorem forall_mem_plainText :
    ∀ c ∈ (Alternative.plainText names).toList, c ≠ '|' ∧ c ≠ '\n' := by
  unfold Alternative.plainText
  split
  · rw [toList_epsilonText]
    exact List.forall_mem_singleton.2 (by decide)
  · rw [String.toList_intercalate]
    refine Text.forall_mem_intercalate (List.forall_mem_singleton.2 (by decide)) ?_
    intro text htext c hc
    obtain ⟨name, hname, rfl⟩ := List.mem_map.1 htext
    have hblank : Text.isBlank c = false := (h name hname).noBlank c hc
    refine ⟨?_, ?_⟩
    · rintro rfl
      exact (h name hname).noBar hc
    · rintro rfl
      exact absurd hblank (by decide)

/-- Of several names the blank between them tells that this is no word for the empty string. -/
theorem isEpsilon_intercalate (hne : names ≠ []) :
    isEpsilon (String.intercalate " " names) = false := by
  obtain ⟨name, rest, rfl⟩ := List.exists_cons_of_ne_nil hne
  cases rest with
  | nil =>
    rw [String.intercalate_singleton]
    exact (h name (by simp)).notEpsilon
  | cons name' rest =>
    refine Bool.eq_false_iff.2 fun hepsilon => ?_
    have hblank : ∀ text ∈ epsilons, ' ' ∉ text.toList := by decide
    refine hblank _ (List.contains_iff_mem.1 hepsilon) ?_
    simp [String.toList_intercalate]

theorem readAlternative_plainText :
    readAlternative (Alternative.plainText names).toList = .plain names := by
  unfold Alternative.plain Alternative.plainText
  split
  · next hempty =>
    obtain rfl : names = [] := by simpa using hempty
    rfl
  · next hne =>
    have hwords : (Text.words (String.intercalate " " names).toList).map String.ofList = names := by
      have hblank : " ".toList = [' '] := rfl
      rw [String.toList_intercalate, hblank, Text.words_intercalate]
      · simp [Function.comp_def]
      · intro word hword
        obtain ⟨name, hname, rfl⟩ := List.mem_map.1 hword
        exact ⟨(h name hname).nonempty, (h name hname).noBlank⟩
    have hkept : names.filter (fun name => !isEpsilon name) = names :=
      List.filter_eq_self.2 fun name hname => by simp [(h name hname).notEpsilon]
    have hdropped : names.filter isEpsilon = [] :=
      List.filter_eq_nil_iff.2 fun name hname => by simp [(h name hname).notEpsilon]
    have hepsilon := isEpsilon_intercalate h (by simpa using hne)
    simp only [readAlternative, String.ofList_toList, hepsilon, Bool.false_eq_true, if_false,
      hwords, hkept, hdropped]

end Alternatives

/-- A production that is written as it was read. -/
structure Plain (p : Production) : Prop extends Legible p where
  alternatives : ∀ a ∈ p.alternatives, a = .plain a.names

/-- Each alternative has one blank before it and, unless it is the last one, one after it. -/
theorem map_trim_pieces {texts : List (List Char)} (hne : texts ≠ [])
    (h : ∀ text ∈ texts, Text.Solid text ∧ '|' ∉ text) :
    (Text.pieces (· == '|') ([' ', '|'].intercalate (texts.map (' ' :: ·)))).map Text.trim =
      texts := by
  have hblank : ∀ c ∈ [' '], Text.isBlank c = true := List.forall_mem_singleton.2 (by decide)
  induction texts with
  | nil => exact absurd rfl hne
  | cons text texts ih =>
    obtain ⟨⟨hsolid, hbar⟩, hrest⟩ := List.forall_mem_cons.1 h
    have hcut : ∀ c ∈ text, (c == '|') = false := by
      intro c hc
      simpa using ne_of_mem_of_not_mem hc hbar
    cases texts with
    | nil =>
      have htrim : Text.trim (' ' :: text) = text := by
        simpa using hsolid.trim_between [' '] [] hblank (by simp)
      rw [List.map_singleton, List.intercalate_singleton,
        Text.pieces_of_forall (by simpa using hcut), List.map_singleton, htrim]
    | cons text' texts =>
      have htrim : Text.trim (' ' :: text ++ [' ']) = text :=
        hsolid.trim_between [' '] [' '] hblank hblank
      have hcut' : ∀ c ∈ ' ' :: text ++ [' '], (c == '|') = false := by
        simpa [or_imp, forall_and] using hcut
      have hjoin : [' ', '|'].intercalate ((text :: text' :: texts).map (' ' :: ·)) =
          (' ' :: text ++ [' ']) ++ '|' ::
            [' ', '|'].intercalate ((text' :: texts).map (' ' :: ·)) := by
        simp only [List.map_cons, List.intercalate_cons_cons, List.append_assoc, List.cons_append,
          List.nil_append]
      rw [hjoin, Text.pieces_append_cons hcut' (by decide), List.map_cons, htrim,
        ih (by simp) hrest]

/-! ## Lines -/

theorem toList_line (p : Production) :
    p.line.toList =
      (p.lhs.toList ++ [' ']) ++ '→' :: [' ', '|'].intercalate (p.texts.map (' ' :: ·)) := by
  simp [Production.line, Production.texts, String.toList_intercalate, Function.comp_def]

namespace Plain

variable (h : Plain p)
include h

theorem solid_texts : ∀ text ∈ p.texts, Text.Solid text := by
  intro text htext
  obtain ⟨a, ha, rfl⟩ := List.mem_map.1 htext
  rw [h.alternatives a ha]
  exact solid_plainText (h.words a ha)

theorem forall_mem_texts : ∀ text ∈ p.texts, ∀ c ∈ text, c ≠ '|' ∧ c ≠ '\n' := by
  intro text htext
  obtain ⟨a, ha, rfl⟩ := List.mem_map.1 htext
  rw [h.alternatives a ha]
  exact forall_mem_plainText (h.words a ha)

theorem solid_lhs : Text.Solid p.lhs.toList :=
  .of_forall h.lhs.nonempty h.lhs.noBlank

theorem solid_line : Text.Solid p.line.toList := by
  rw [toList_line]
  by_cases hne : p.texts = []
  · have harrow : Text.Solid ['→'] := .singleton (by decide)
    simpa [hne] using h.solid_lhs.between harrow [' ']
  · have htexts := Text.Solid.intercalate h.solid_texts hne ([' ', '|'] ++ [' '])
    rw [Text.intercalate_map_cons hne]
    simpa using h.solid_lhs.between htexts [' ', '→', ' ']

theorem noNewline_line : ∀ c ∈ p.line.toList, (c == '\n') = false := by
  have hlhs : ∀ c ∈ p.lhs.toList, c ≠ '\n' := by
    rintro c hc rfl
    exact absurd (h.lhs.noBlank _ hc) (by decide)
  have hrhs : ∀ c ∈ [' ', '|'].intercalate (p.texts.map (' ' :: ·)), c ≠ '\n' := by
    refine Text.forall_mem_intercalate (by simp) fun text htext => ?_
    obtain ⟨text, hmem, rfl⟩ := List.mem_map.1 htext
    exact List.forall_mem_cons.2 ⟨by decide, fun c hc => (h.forall_mem_texts text hmem c hc).2⟩
  rw [toList_line]
  simpa [or_imp, forall_and] using ⟨hlhs, hrhs⟩

theorem readAlternatives_texts :
    readAlternatives ([' ', '|'].intercalate (p.texts.map (' ' :: ·))) = p.alternatives := by
  have hread : ∀ a ∈ p.alternatives, readAlternative a.text.toList = a := by
    intro a ha
    rw [h.alternatives a ha]
    exact readAlternative_plainText (h.words a ha)
  have hall : p.texts.map readAlternative = p.alternatives := by
    rw [Production.texts, List.map_map]
    exact (List.map_congr_left (g := id) hread).trans (List.map_id _)
  by_cases hne : p.texts = []
  · rw [← hall, hne]
    rfl
  · have htrim := map_trim_pieces hne fun text htext =>
      ⟨h.solid_texts text htext, fun hbar => (h.forall_mem_texts text htext _ hbar).1 rfl⟩
    have hkept : p.texts.filter (fun text => !text.isEmpty) = p.texts :=
      List.filter_eq_self.2 fun text htext => by simpa using (h.solid_texts text htext).ne_nil
    rw [readAlternatives, htrim, hkept, hall]

theorem readLine_line : readLine p.line.toList = .production p := by
  have hblank : ∀ c ∈ [' '], Text.isBlank c = true := List.forall_mem_singleton.2 (by decide)
  have htrim : Text.trim (p.lhs.toList ++ [' ']) = p.lhs.toList := by
    simpa using h.solid_lhs.trim_between [] [' '] (by simp) hblank
  have harrow : '→' ∉ p.lhs.toList ++ [' '] := by simp [h.lhs.noArrow]
  rw [readLine, splitArrow?_eq, toList_line, Text.cutAt?_of_not_mem harrow, Option.some_or,
    Option.map_some]
  simp only [htrim, h.lhs.valid, if_true, String.ofList_toList, h.readAlternatives_texts]

end Plain

/-! ## Whole texts -/

/-- Written line by line, productions are read again as they are. -/
theorem productions_read_join (h : ∀ p ∈ ps, Plain p) :
    productions (read (String.join (ps.map fun p => p.line ++ "\n")).toList) = ps := by
  rw [productions_read, String.toList_join]
  induction ps with
  | nil => rfl
  | cons p ps ih =>
    obtain ⟨hp, hps⟩ := List.forall_mem_cons.1 h
    have hnewline : "\n".toList = ['\n'] := rfl
    have hread : production? p.line.toList = some p := by
      simp [production?, hp.solid_line.ne_nil, hp.readLine_line]
    rw [List.map_cons, List.flatMap_cons, String.toList_append, hnewline, List.append_assoc,
      List.singleton_append, Text.lines, Text.pieces_append_cons hp.noNewline_line (by decide),
      List.map_cons, hp.solid_line.trim_eq, List.filterMap_cons_some hread]
    exact congrArg (p :: ·) (ih hps)

end Listing

end Predictive
