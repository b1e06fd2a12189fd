-- SUMMARY: What a listing loads as, by name: symbols, start symbol, nonterminals and rules read off its kept lines.
import Predictive.Proofs.Grammar.KeptLines
import Predictive.Proofs.Grammar.Listing
import Predictive.Proofs.Grammar.Rearrangement

/-!
# Loading

A listing loads if it has a kept line, and what it loads as can be said by the names in the kept
lines: which symbols there are, which of them are nonterminals, and for each of these the
alternatives of its lines, in the order of the text. The walk that puts the rules of different
nonterminals in another order does not show here. Nothing but a text without kept lines is an error.
-/

namespace Predictive

/-! ## Symbols by name -/

namespace Listing

variable {ps : List Production} {name : String} {x : Symbol} {text : List Char}
  {ks : List KeptLine}

theorem nameOf?_builder : (builder ps).table.nameOf? x = some name ↔
    name ∈ names ps ∧ symbol (names ps) name = x := by
  have hname : (builder ps).table.nameOf? x = (names ps)[x.id]? := by
    rw [SymbolTable.nameOf?, ← Array.getElem?_toList, names_builder, List.getElem?_map]
    cases (names ps)[x.id]? <;> rfl
  rw [hname]
  refine ⟨fun h => ?_, ?_⟩
  · obtain ⟨hlt, rfl⟩ := List.getElem?_eq_some_iff.1 h
    exact ⟨List.getElem_mem hlt, by rw [symbol, (nodup_names ps).idxOf_getElem]⟩
  · rintro ⟨hmem, rfl⟩
    exact getElem?_symbol hmem

theorem issued_builder :
    (builder ps).table.issued x = true ↔ ∃ name, (builder ps).table.nameOf? x = some name := by
  simp only [nameOf?_builder]
  refine ⟨fun h => ?_, ?_⟩
  · have hlt : x.id < (names ps).length := by
      simpa [SymbolTable.issued, size_builder] using h
    exact ⟨(names ps)[x.id], List.getElem_mem hlt, by rw [symbol, (nodup_names ps).idxOf_getElem]⟩
  · rintro ⟨name, hmem, rfl⟩
    exact issued_symbol hmem

/-- The rule that an alternative of a production stands for. -/
def ruleOf (ns : List String) (p : Production) (a : Alternative) : Rule :=
  ⟨symbol ns p.lhs, a.names.map (symbol ns)⟩

/-- Among the rules of several productions those of one symbol come from the productions of its
    name. -/
theorem filter_flatMap_ruleOf {ns : List String} {qs : List Production}
    (hqs : ∀ p ∈ qs, p.lhs ∈ ns) (name : String) :
    (qs.flatMap fun p => p.alternatives.map (ruleOf ns p)).filter
        (fun rule => rule.lhs == symbol ns name) =
      (qs.filter fun p => p.lhs == name).flatMap fun p => p.alternatives.map (ruleOf ns p) := by
  have hlhs : ∀ p : Production, ∀ rule ∈ p.alternatives.map (ruleOf ns p),
      rule.lhs = symbol ns p.lhs := by
    intro p rule hrule
    obtain ⟨a, -, rfl⟩ := List.mem_map.1 hrule
    rfl
  have hname : ∀ p ∈ qs, (symbol ns p.lhs == symbol ns name) = (p.lhs == name) := by
    intro p hp
    rw [Bool.eq_iff_iff, beq_iff_eq, beq_iff_eq, symbol_inj (hqs p hp)]
  rw [filter_flatMap_of_key hlhs, List.filter_congr hname]

/-- The rules of a nonterminal, with names on the right, are the alternatives of its productions. -/
theorem map_rulesFor (hx : (builder ps).table.nameOf? x = some name) :
    ((builder ps).rulesFor x).map (fun rule => rule.rhs.map (builder ps).table.nameOf?) =
      (ps.filter fun p => p.lhs == name).flatMap fun p =>
        (p.alternatives.map Alternative.names).map (List.map some) := by
  obtain ⟨-, rfl⟩ := nameOf?_builder.1 hx
  have hlhs : ∀ p ∈ ps, p.lhs ∈ names ps := fun p => lhs_mem_names
  have hrules := filter_flatMap_ruleOf hlhs name
  rw [Builder.rulesFor, rules_builder]
  refine (congrArg _ hrules).trans ?_
  rw [List.map_flatMap]
  refine List.flatMap_congr fun p hp => ?_
  rw [List.map_map, List.map_map]
  refine List.map_congr_left fun a ha => ?_
  rw [Function.comp_apply, Function.comp_apply, ruleOf, List.map_map]
  refine List.map_congr_left fun word hword => nameOf?_builder.2 ⟨?_, rfl⟩
  exact mem_names_of_alternative (List.mem_filter.1 hp).1 ha hword

theorem contains_declared_builder : (builder ps).nonterminalSet.contains x = true ↔
    ∃ p ∈ ps, (builder ps).table.nameOf? x = some p.lhs := by
  rw [Builder.contains_nonterminalSet, mem_declared_builder]
  refine exists_congr fun p => and_congr_right fun hp => ?_
  rw [nameOf?_builder, and_iff_right (lhs_mem_names hp)]

/-- Every symbol that is no nonterminal is a terminal: it is the end of input, or it stands in some
    alternative. -/
theorem contains_terminalSet_builder (hlhs : ∀ p ∈ ps, p.lhs ≠ endOfInputName) :
    (builder ps).terminalSet.contains x = true ↔
      (builder ps).table.issued x = true ∧ (builder ps).nonterminalSet.contains x = false := by
  rw [← Bool.not_eq_true, Builder.contains_nonterminalSet, Builder.contains_terminalSet,
    issued_builder]
  simp only [nameOf?_builder, mem_names]
  refine ⟨?_, ?_⟩
  · rintro (rfl | ⟨hmentioned, hdeclared⟩)
    · have hend := symbol_endOfInputName ps
      refine ⟨⟨endOfInputName, .inl rfl, hend⟩, fun hdeclared => ?_⟩
      obtain ⟨p, hp, heq⟩ := mem_declared_builder.1 hdeclared
      rw [← hend, symbol_inj (lhs_mem_names hp)] at heq
      exact hlhs p hp heq
    · obtain ⟨p, hp, a, ha, name, hname, rfl⟩ := exists_name_of_mem_mentioned hmentioned
      exact ⟨⟨name, mem_names.1 (mem_names_of_alternative hp ha hname), rfl⟩, hdeclared⟩
  · rintro ⟨⟨name, rfl | ⟨p, hp, hname⟩, rfl⟩, hdeclared⟩
    · exact .inl (symbol_endOfInputName ps)
    · refine .inr ⟨?_, hdeclared⟩
      rcases List.mem_cons.1 hname with rfl | hname
      · exact absurd (mem_declared_builder.2 ⟨p, hp, rfl⟩) hdeclared
      · obtain ⟨a, ha, hname⟩ := List.mem_flatMap.1 hname
        refine List.mem_flatMap.2 ⟨ruleOf (names ps) p a, ?_, List.mem_map_of_mem hname⟩
        exact Array.mem_toList_iff.2 (mem_rules_builder.2 ⟨p, hp, a, ha, rfl⟩)

/-! ## Lines -/

/-- The number of lines that are not blank. -/
def nonBlankLines (text : List Char) : Nat :=
  (Text.lines text).countP fun line => !line.all Text.isBlank

theorem length_read (text : List Char) : (read text).length = nonBlankLines text := by
  have hblank : ∀ line, (Text.trim line).isEmpty = line.all Text.isBlank := by
    intro line
    rw [Bool.eq_iff_iff, List.isEmpty_iff, Text.trim_eq_nil_iff, List.all_eq_true]
  have hsome : ∀ entry : List Char × Nat,
      (if entry.1.isEmpty then none else some (ListingLine.mk entry.2 (readLine entry.1))).isSome =
        !entry.1.isEmpty := by
    intro entry
    cases entry.1.isEmpty <;> rfl
  have hnumbers : ∀ lines : List (List Char),
      (lines.zipIdx 1).countP (fun entry => !entry.1.isEmpty) =
        lines.countP fun line => !line.isEmpty := by
    intro lines
    conv_rhs => rw [← List.zipIdx_map_fst 1 lines, List.countP_map]
    rfl
  rw [read, List.length_filterMap_eq_countP, nonBlankLines]
  simp only [hsome, hnumbers, List.countP_map, ← hblank]
  rfl

end Listing

/-! ## Loading -/

namespace Grammar

/-- The grammar says by its names what the kept lines say. -/
structure ReadFrom (g : Grammar) (ks : List KeptLine) : Prop where
  named : ∀ x, g.table.issued x = true ↔ ∃ name, g.table.nameOf? x = some name
  distinct : ∀ x y name, g.table.nameOf? x = some name → g.table.nameOf? y = some name → x = y
  endOfInput : g.table.nameOf? endOfInput = some "$"
  names : ∀ name, (∃ x, g.table.nameOf? x = some name) ↔
    name = "$" ∨ ∃ k ∈ ks, name = k.lhs ∨ ∃ words ∈ k.alternatives, name ∈ words
  start : g.table.nameOf? g.start = ks.head?.map KeptLine.lhs
  nonterminal_iff : ∀ x, g.isNonterminal x = true ↔ ∃ k ∈ ks, g.table.nameOf? x = some k.lhs
  terminal_iff : ∀ x, g.isTerminal x = true ↔ g.table.issued x = true ∧ g.isNonterminal x = false
  rules : ∀ x name, g.table.nameOf? x = some name →
    (g.rules.toList.filter fun rule => rule.lhs == x).map
        (fun rule => rule.rhs.map g.table.nameOf?) =
      (ks.filter fun k => k.lhs == name).flatMap fun k => k.alternatives.map (List.map some)

section

variable {k : KeptLine} {ks : List KeptLine} {name : String}

theorem mem_mentions_production : name ∈ Listing.mentions k.production ↔
    name = k.lhs ∨ ∃ words ∈ k.alternatives, name ∈ words := by
  rw [Listing.mentions, List.mem_cons, List.mem_flatMap, ← Listing.names_production]
  simp [KeptLine.production]

theorem exists_mem_productions {P : Production → Prop} :
    (∃ p ∈ ks.map KeptLine.production, P p) ↔ ∃ k ∈ ks, P k.production := by
  simp

theorem readFrom_layout {ps : List Production} (hps : ps = (k :: ks).map KeptLine.production)
    (hlhs : ∀ p ∈ ps, p.lhs ≠ endOfInputName) :
    ((Listing.builder ps).layout (Listing.symbol (Listing.names ps) k.lhs)).ReadFrom
      (k :: ks) where
  named _ := Listing.issued_builder
  distinct x y name hx hy :=
    (Listing.nameOf?_builder.1 hx).2.symm.trans (Listing.nameOf?_builder.1 hy).2
  endOfInput := Listing.nameOf?_builder.2
    ⟨Listing.mem_names.2 (.inl rfl), Listing.symbol_endOfInputName ps⟩
  names name := by
    have hmem : (∃ x, (Listing.builder ps).table.nameOf? x = some name) ↔
        name ∈ Listing.names ps := by simp [Listing.nameOf?_builder]
    refine hmem.trans (Listing.mem_names.trans (or_congr_right ?_))
    rw [hps, exists_mem_productions]
    simp only [mem_mentions_production]
  start := by
    have hfirst : k.production ∈ ps := by simp [hps]
    exact Listing.nameOf?_builder.2 ⟨Listing.lhs_mem_names hfirst, rfl⟩
  nonterminal_iff x := by
    subst hps
    exact Listing.contains_declared_builder.trans exists_mem_productions
  terminal_iff x := by
    rw [isTerminal, isNonterminal, Builder.terminalSet_layout, Builder.nonterminalSet_layout]
    exact Listing.contains_terminalSet_builder hlhs
  rules x name hx := by
    have hrules := Builder.filter_rules_layout (b := Listing.builder ps)
      (fun _ => Builder.lhs_mem_declared) (Builder.nodup_declared _)
      (Listing.symbol (Listing.names ps) k.lhs) x
    rw [hrules]
    refine (Listing.map_rulesFor hx).trans ?_
    rw [hps, List.filter_map, List.flatMap_map]
    simp only [Listing.names_production]
    rfl

end

/-- Loading finds the kept lines, of which there is one sequence only. It fails if there are none,
    since then there are no rules, and otherwise its result says what these lines say. -/
theorem load_readFrom (text : String) : ∃ ks, Listing.KeptLines (Text.lines text.toList) ks ∧
    (∀ ks', Listing.KeptLines (Text.lines text.toList) ks' → ks' = ks) ∧
    (∀ e, Grammar.load text = .error e ↔
      ks = [] ∧ e = .malformed (Listing.nonBlankLines text.toList)) ∧
    (∀ e, (Listing.builder (Listing.productions (Listing.read text.toList))).build = .error e →
      e = .noRules) ∧
    ∀ g, Grammar.load text = .ok g → g.ReadFrom ks := by
  obtain ⟨ks, hks⟩ := Listing.KeptLines.exists (Text.lines text.toList)
  have hread : Listing.productions (Listing.read text.toList) = ks.map KeptLine.production := by
    rw [Listing.productions_read, hks.filterMap_production?]
  refine ⟨ks, hks, fun ks' hks' => hks'.unique hks, ?_⟩
  cases ks with
  | nil =>
    have hbuild : (Listing.builder []).build = .error .noRules := by decide +kernel
    have hload : Grammar.load text = .error (.malformed (Listing.nonBlankLines text.toList)) := by
      simp only [load, hread, List.map_nil, hbuild, Listing.length_read]
    rw [hload, hread, List.map_nil, hbuild]
    refine ⟨fun e => ?_, fun e he => ?_, fun g hg => ?_⟩
    · simp [eq_comm]
    · cases he
      rfl
    · cases hg
  | cons k ks =>
    have hlhs : ∀ k' ∈ k :: ks, k'.lhs ≠ endOfInputName := by
      intro k' hk' heq
      exact (hks.leftSide hk').notReserved (by simp [heq, endOfInputName])
    have hproductions : ∀ p ∈ (k :: ks).map KeptLine.production, p.lhs ≠ endOfInputName :=
      List.forall_mem_map.2 hlhs
    have hload := load_of_productions hread hproductions
    have hbuild := Builder.build_of_fault? (Listing.fault?_builder hproductions (by simp))
      (Listing.start?_builder _)
    rw [hload, hread, hbuild]
    refine ⟨fun e => ?_, fun e he => ?_, fun g hg => ?_⟩
    · simp
    · cases he
    · cases hg
      exact readFrom_layout rfl hproductions

/-- Lines without an arrow and with names that cannot stand left of one, between them two lines of
    `S`, an arrow in a name, and words for the empty string alone and among others. -/
def unevenText : String :=
  "# rules\n$ -> a\nS → A | ε x | $ | ε\n\n A B -> c\n\tA->b->c\nS → || y\nε → d"

theorem load_readFrom_uneven : ∃ ks g, Listing.KeptLines (Text.lines unevenText.toList) ks ∧
    (ks.map fun k => (k.lhs, k.alternatives)) =
      [("S", [["A"], ["x"], ["$"], []]), ("A", [["b->c"]]), ("S", [["y"]])] ∧
    Grammar.load unevenText = .ok g ∧ g.ReadFrom ks := by
  obtain ⟨ks, hks, -, -, -, hload⟩ := load_readFrom unevenText
  obtain ⟨g, hg, -⟩ := exists_ok_of_any (fun _ => True)
    (by decide +kernel : (Grammar.load unevenText).toOption.any _ = true)
  refine ⟨ks, g, hks, ?_, hg, hload g hg⟩
  have hproductions := hks.filterMap_production?
  have hread : (((Text.lines unevenText.toList).map Text.trim).filterMap
      Listing.production?).map (fun p => (p.lhs, p.alternatives.map Alternative.names)) =
      [("S", [["A"], ["x"], ["$"], []]), ("A", [["b->c"]]), ("S", [["y"]])] := by decide +kernel
  rw [hproductions, List.map_map] at hread
  simp only [← hread, Function.comp_def, Listing.names_production]
  rfl

end Grammar

end Predictive
