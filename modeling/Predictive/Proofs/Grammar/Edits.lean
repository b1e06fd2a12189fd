-- SUMMARY: Edits of a listing that do not change the grammar it loads as.
import Predictive.Proofs.Grammar.KeptLines
import Predictive.Proofs.Grammar.Listing

/-!
# Edits of a listing

A line that is not kept can stand anywhere, and the alternatives of a kept line can stand on two
lines with the same arrow. Neither changes the grammar that is loaded, not even the numbers of its
symbols: a line that is not kept names nothing, and the second of the two lines begins with a name
that already has its symbol.
-/

namespace Predictive

namespace Listing

variable {line line' before before' after after' arrow : List Char}
  {k k' : KeptLine} {ps qs : List Production} {lines lines' : List (List Char)}

/-! ## Edits -/

/-- The line holds nothing but blanks, or it has no arrow, or what stands left of the arrow cannot
    stand there. -/
inductive Skipped (line : List Char) : Prop
  | blank : (∀ c ∈ line, Text.isBlank c = true) → Skipped line
  | noArrow : '→' ∉ line → ¬ ['-', '>'] <:+: line → Skipped line
  | invalidLhs {before arrow after : List Char} : CutsAt (Text.trim line) before arrow after →
    ¬ LeftSide (String.ofList (Text.trim before)) → Skipped line

/-- The line holds these three, with any blanks around the left and the right one. -/
def Spells (line : List Char) (k : KeptLine) : Prop :=
  ∃ left right, line = left ++ k.arrow ++ right ∧
    k.lhs = String.ofList (Text.trim left) ∧ Text.trim right = Text.trim k.rhs

/-- One edit of the lines of a text. -/
inductive LineEdit : List (List Char) → List (List Char) → Prop
  /-- A line that is not kept comes in anywhere. -/
  | insert {line : List Char} (above below : List (List Char)) :
    Skipped line → LineEdit (above ++ below) (above ++ line :: below)
  /-- A kept line is split at any bar on its right. -/
  | split {line first second arrow left right : List Char} {lhs : String}
    (above below : List (List Char)) : Keeps line ⟨lhs, arrow, left ++ '|' :: right⟩ →
    Spells first ⟨lhs, arrow, left⟩ → Spells second ⟨lhs, arrow, right⟩ →
    LineEdit (above ++ line :: below) (above ++ first :: second :: below)

/-! ## Arrows -/

/-- What stands on both sides of an arrow hides no arrow that would be found instead. -/
inductive Separates : (arrow before after : List Char) → Prop
  | unicode {before after : List Char} : '→' ∉ before → Separates ['→'] before after
  | ascii {before after : List Char} : '→' ∉ before → '→' ∉ after →
    ¬ ['-', '>'] <:+: before → Separates ['-', '>'] before after

theorem cutsAt_iff : CutsAt line before arrow after ↔
    line = before ++ arrow ++ after ∧ Separates arrow before after := by
  refine ⟨fun h => ?_, ?_⟩
  · cases h with
    | unicode h =>
      refine ⟨h.eq, .unicode fun hmem => h.not_infix_before (by simp) ?_⟩
      exact (List.singleton_infix_iff _ _).2 hmem
    | ascii hno h =>
      rw [h.eq] at hno
      simp only [List.mem_append, not_or] at hno
      exact ⟨h.eq, .ascii hno.1.1 hno.2 (h.not_infix_before (by simp))⟩
  · rintro ⟨rfl, h⟩
    cases h with
    | unicode hbefore =>
      refine .unicode (Text.firstAt_append (by simp) (fun h => hbefore ?_) after)
      exact (List.singleton_infix_iff _ _).1 h
    | ascii hbefore hafter hoccurs =>
      exact .ascii (by simp [hbefore, hafter]) (Text.firstAt_append (by simp) hoccurs after)

theorem Separates.noBlank (h : Separates arrow before after) :
    ∀ c ∈ arrow, Text.isBlank c = false := by
  cases h with
  | unicode => exact List.forall_mem_singleton.2 (by decide)
  | ascii => exact List.forall_mem_cons.2 ⟨by decide, List.forall_mem_singleton.2 (by decide)⟩

theorem Separates.solid (h : Separates arrow before after) : Text.Solid arrow :=
  .of_forall (by cases h <;> simp) h.noBlank

/-- Blanks do not matter for what an arrow separates. -/
theorem Separates.congr (h : Separates arrow before after)
    (hblank : ∀ c ∈ Text.trim before, Text.isBlank c = false)
    (hbefore : Text.trim before' = Text.trim before)
    (hafter : ∀ c ∈ Text.trim after', c ∈ after) : Separates arrow before' after' := by
  have hleft : '→' ∉ before → '→' ∉ before' := fun hno hmem =>
    hno (Text.mem_of_mem_trim (hbefore ▸ Text.mem_trim_of_mem hmem (by decide)))
  have hmark := h.noBlank
  cases h with
  | unicode hno => exact .unicode (hleft hno)
  | ascii hno hno' hoccurs =>
    refine .ascii (hleft hno) (fun hmem => hno' ?_) fun hoccurs' => hoccurs ?_
    · exact hafter _ (Text.mem_trim_of_mem hmem (by decide))
    · have htrim := Text.infix_trim hmark (hbefore ▸ hblank) hoccurs'
      exact (hbefore ▸ htrim).trans (Text.trim_infix_self before)

/-! ## Lines -/

theorem Skipped.not_keeps (h : Skipped line) (k : KeptLine) : ¬ Keeps line k := by
  intro hk
  obtain ⟨before, hcut, hlhs⟩ := hk.cut
  cases h with
  | blank hblank => exact hcut.ne_nil (Text.trim_eq_nil_iff.2 hblank)
  | noArrow hunicode hascii =>
    generalize k.arrow = arrow at hcut
    cases hcut with
    | unicode hfirst =>
      exact hunicode (Text.mem_of_mem_trim (by simp [hfirst.eq]))
    | ascii _ hfirst =>
      have hoccurs : ['-', '>'] <:+: Text.trim line := ⟨before, k.rhs, hfirst.eq.symm⟩
      exact hascii (hoccurs.trans (Text.trim_infix_self line))
  | invalidLhs hcut' hno =>
    obtain ⟨rfl, -⟩ := hcut.unique hcut'
    exact hno (hlhs ▸ hk.lhs)

/-- A part of the right side, written behind the same name and arrow, is kept as well. -/
theorem Spells.keeps (h : Spells line' k') (hk : Keeps line k) (hlhs : k'.lhs = k.lhs)
    (harrow : k'.arrow = k.arrow) (hrhs : ∀ c ∈ k'.rhs, c ∈ k.rhs) :
    ∃ rhs, Keeps line' ⟨k.lhs, k.arrow, rhs⟩ ∧ Text.trim rhs = Text.trim k'.rhs := by
  obtain ⟨left, right, rfl, hleft, hright⟩ := h
  obtain ⟨before, hcut, hbefore⟩ := hk.cut
  have hseparates := (cutsAt_iff.1 hcut).2
  have htrim : Text.trim left = Text.trim before := by
    rw [← String.ofList_inj, ← hleft, hlhs, hbefore]
  have hblank : ∀ c ∈ Text.trim before, Text.isBlank c = false := by
    simpa [hbefore] using hk.lhs.noBlank
  have hparts : Separates k.arrow (left.dropWhile Text.isBlank)
      (right.rdropWhile Text.isBlank) := by
    refine hseparates.congr hblank ((Text.trim_dropWhile left).trans htrim) fun c hc => ?_
    rw [Text.trim_rdropWhile, hright] at hc
    exact hrhs c (Text.mem_of_mem_trim hc)
  refine ⟨right.rdropWhile Text.isBlank, ⟨⟨left.dropWhile Text.isBlank, ?_, ?_⟩, hk.lhs⟩, ?_⟩
  · rw [harrow, Text.trim_around hseparates.solid]
    exact cutsAt_iff.2 ⟨rfl, hparts⟩
  · rw [Text.trim_dropWhile, ← hleft, hlhs]
  · rw [Text.trim_rdropWhile, hright]

theorem readAlternatives_trim (rhs : List Char) :
    readAlternatives (Text.trim rhs) = readAlternatives rhs := by
  have hbar : ∀ c, Text.isBlank c = true → (c == '|') = false := by
    intro c hc
    refine beq_eq_false_iff_ne.2 ?_
    rintro rfl
    exact absurd hc (by decide)
  rw [readAlternatives, readAlternatives, Text.map_trim_pieces_trim hbar]

theorem readAlternatives_append (before after : List Char) :
    readAlternatives (before ++ '|' :: after) =
      readAlternatives before ++ readAlternatives after := by
  have hpieces : Text.pieces (· == '|') (before ++ '|' :: after) =
      Text.pieces (· == '|') before ++ Text.pieces (· == '|') after :=
    Text.pieces_append rfl before after
  simp only [readAlternatives, hpieces, List.map_append, List.filter_append]

/-- A line that spells a part of a kept line is read as this part of its production. -/
theorem Spells.production? (h : Spells line' k') (hk : Keeps line k) (hlhs : k'.lhs = k.lhs)
    (harrow : k'.arrow = k.arrow) (hrhs : ∀ c ∈ k'.rhs, c ∈ k.rhs) :
    production? (Text.trim line') = some k'.production := by
  obtain ⟨rhs, hkeeps, htrim⟩ := h.keeps hk hlhs harrow hrhs
  refine production?_trim.2 ⟨_, hkeeps, ?_⟩
  rw [KeptLine.production, KeptLine.production, hlhs, ← readAlternatives_trim, htrim,
    readAlternatives_trim]

/-! ## Builders -/

theorem declare_addRules (b : Builder) (lhs : Symbol) (xs : List (List Symbol)) :
    (b.addRules lhs xs).declare lhs = b.addRules lhs xs := by
  have hmem : lhs ∈ (b.addRules lhs xs).declared := by
    rw [Builder.addRules_eq, Builder.declare]
    split <;> simp_all
  have hstart : ((b.addRules lhs xs).start? <|> some lhs) = (b.addRules lhs xs).start? := by
    rw [Builder.addRules_eq]
    cases hb : b.start? <;> simp [Builder.declare, hb]
  rw [Builder.declare, hstart, if_pos hmem]

/-- Rules of one nonterminal can be added at once. -/
theorem addRules_addRules (b : Builder) (lhs : Symbol) (xs ys : List (List Symbol)) :
    (b.addRules lhs xs).addRules lhs ys = b.addRules lhs (xs ++ ys) := by
  rw [Builder.addRules_eq (b.addRules lhs xs), declare_addRules, Builder.addRules_eq,
    Builder.addRules_eq]
  simp

theorem names_split (lhs : String) (xs ys : List Alternative) :
    names (ps ++ ⟨lhs, xs⟩ :: ⟨lhs, ys⟩ :: qs) = names (ps ++ ⟨lhs, xs ++ ys⟩ :: qs) := by
  have hmem : lhs ∈ endOfInputName :: ps.flatMap mentions ++ mentions ⟨lhs, xs⟩ := by
    simp [mentions]
  have h := eraseDups_append_cons_of_mem hmem
    (ys.flatMap Alternative.names ++ qs.flatMap mentions)
  simpa [names, mentions] using h

/-- One production does for two that have the same left-hand side and stand together. -/
theorem builder_split (lhs : String) (xs ys : List Alternative) :
    builder (ps ++ ⟨lhs, xs⟩ :: ⟨lhs, ys⟩ :: qs) = builder (ps ++ ⟨lhs, xs ++ ys⟩ :: qs) := by
  simp only [builder, Builder.ofSteps, steps, names_split, List.map_append, List.map_cons,
    List.foldl_append, List.foldl_cons, productionStep, Builder.perform, addRules_addRules]

/-- An edit of the lines does not show in the builder. -/
theorem LineEdit.builder_eq (h : LineEdit lines lines') :
    builder ((lines'.map Text.trim).filterMap production?) =
      builder ((lines.map Text.trim).filterMap production?) := by
  cases h with
  | insert above below hskipped =>
    have hnone := production?_trim_eq_none hskipped.not_keeps
    rw [List.map_append, List.map_cons, List.filterMap_append, List.filterMap_cons_none hnone,
      List.map_append, List.filterMap_append]
  | split above below hkeeps hfirst hsecond =>
    have hline := production?_trim.2 ⟨_, hkeeps, rfl⟩
    have hfirst := hfirst.production? hkeeps rfl rfl fun c hc => List.mem_append_left _ hc
    have hsecond := hsecond.production? hkeeps rfl rfl fun c hc =>
      List.mem_append_right _ (List.mem_cons_of_mem _ hc)
    rw [List.map_append, List.map_cons, List.map_cons, List.filterMap_append,
      List.filterMap_cons_some hfirst, List.filterMap_cons_some hsecond, List.map_append,
      List.map_cons, List.filterMap_append, List.filterMap_cons_some hline]
    simp only [KeptLine.production, readAlternatives_append]
    exact builder_split _ _ _

end Listing

/-! ## Loading -/

namespace Grammar

theorem load_eq_ok_iff {text : String} {g : Grammar} : Grammar.load text = .ok g ↔
    (Listing.builder (Listing.productions (Listing.read text.toList))).build = .ok g := by
  simp only [load]
  split
  · next hbuild => simp [hbuild]
  · next hbuild => simp [hbuild]

/-- An edit of the lines of a text that loads leaves the grammar as it is. -/
theorem load_of_lineEdit {text text' : String} {g : Grammar} (hload : Grammar.load text = .ok g)
    (hedit : Listing.LineEdit (Text.lines text.toList) (Text.lines text'.toList)) :
    Grammar.load text' = .ok g := by
  rw [load_eq_ok_iff, Listing.productions_read] at hload
  rw [load_eq_ok_iff, Listing.productions_read, hedit.builder_eq, hload]

/-- The right side of the first line begins with a bar and has another arrow and an empty
    alternative in it. -/
def twoArrowsText : String := " A->| b -> c|| d \nS -> A|ε x"

/-- The same below a line whose left-hand side would be the start symbol, if it were kept. -/
def startlessText : String := "$ → A\n A->| b -> c|| d \nS -> A|ε x"

/-- The same with the line of two arrows split at its second bar. -/
def splitText : String := "$ → A\n A->| b -> c\n A->| d \nS -> A|ε x"

theorem load_of_lineEdit_twice : ∃ g,
    Grammar.load twoArrowsText = .ok g ∧
    Listing.LineEdit (Text.lines twoArrowsText.toList) (Text.lines startlessText.toList) ∧
    Listing.LineEdit (Text.lines startlessText.toList) (Text.lines splitText.toList) ∧
    Grammar.load splitText = .ok g := by
  obtain ⟨g, hload, -⟩ := exists_ok_of_any (fun _ => True)
    (by decide +kernel : (Grammar.load twoArrowsText).toOption.any _ = true)
  have hskipped : Listing.Skipped "$ → A".toList := by
    have hcut : Listing.CutsAt (Text.trim "$ → A".toList) "$ ".toList ['→'] " A".toList :=
      .unicode (Text.firstAt_of_cutAt? (by decide +kernel))
    have hreserved : String.ofList (Text.trim "$ ".toList) ∈ ["$", "ε", "epsilon"] := by
      decide +kernel
    exact .invalidLhs hcut fun hlhs => hlhs.notReserved hreserved
  have hkeeps : Listing.Keeps " A->| b -> c|| d ".toList
      ⟨"A", ['-', '>'], "| b -> c".toList ++ '|' :: "| d".toList⟩ := by
    have hcut : Listing.CutsAt (Text.trim " A->| b -> c|| d ".toList) "A".toList ['-', '>']
        ("| b -> c".toList ++ '|' :: "| d".toList) :=
      .ascii (by decide +kernel) (Text.firstAt_of_cutAt? (by decide +kernel))
    have hlhs : Listing.LeftSide "A" :=
      ⟨by decide, List.forall_mem_singleton.2 (by decide), by decide⟩
    exact ⟨⟨"A".toList, hcut, by decide +kernel⟩, hlhs⟩
  have hinsert : Listing.LineEdit (Text.lines twoArrowsText.toList)
      (Text.lines startlessText.toList) := by
    have hlines : Text.lines startlessText.toList =
        "$ → A".toList :: Text.lines twoArrowsText.toList := by decide +kernel
    rw [hlines]
    exact .insert [] _ hskipped
  have hsplit : Listing.LineEdit (Text.lines startlessText.toList)
      (Text.lines splitText.toList) := by
    have hlines : Text.lines startlessText.toList =
        ["$ → A".toList] ++ " A->| b -> c|| d ".toList :: ["S -> A|ε x".toList] := by
      decide +kernel
    have hlines' : Text.lines splitText.toList = ["$ → A".toList] ++
        " A->| b -> c".toList :: " A->| d ".toList :: ["S -> A|ε x".toList] := by decide +kernel
    rw [hlines, hlines']
    refine .split _ _ hkeeps ⟨" A".toList, "| b -> c".toList, ?_⟩ ⟨" A".toList, "| d ".toList, ?_⟩
    · decide +kernel
    · decide +kernel
  exact ⟨g, hload, hinsert, hsplit, load_of_lineEdit (load_of_lineEdit hload hinsert) hsplit⟩

end Grammar

end Predictive
