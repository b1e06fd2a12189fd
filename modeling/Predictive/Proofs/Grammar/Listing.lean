-- SUMMARY: Loaded grammars: the builder behind a listing, and the names that its symbols have.
import Predictive.Grammar.Listing
import Predictive.Proofs.Grammar.History

/-!
# Loaded grammars

Loading creates one symbol for each name and adds the productions in order, so what the builder
holds can be read off the productions. It never has a fault if there is a production at all. The
start symbol of a loaded grammar is therefore always a nonterminal.
-/

namespace Predictive

namespace Listing

variable {ps : List Production} {p : Production} {name : String} {x : Symbol} {rule : Rule}

/-! ## Names -/

theorem names_eq_cons (ps : List Production) :
    names ps = endOfInputName :: (names ps).tail := by
  rw [names, List.eraseDups_cons, List.tail_cons]

theorem nodup_names (ps : List Production) : (names ps).Nodup :=
  nodup_eraseDups _

theorem mem_names : name ∈ names ps ↔ name = endOfInputName ∨ ∃ p ∈ ps, name ∈ mentions p := by
  rw [names, List.mem_eraseDups, List.mem_cons, List.mem_flatMap]

theorem lhs_mem_names (h : p ∈ ps) : p.lhs ∈ names ps :=
  mem_names.2 (.inr ⟨p, h, List.mem_cons_self⟩)

theorem mem_names_of_alternative {a : Alternative} (h : p ∈ ps) (ha : a ∈ p.alternatives)
    (hname : name ∈ a.names) : name ∈ names ps :=
  mem_names.2 (.inr ⟨p, h, List.mem_cons_of_mem _ (List.mem_flatMap.2 ⟨a, ha, hname⟩)⟩)

theorem symbol_endOfInputName (ps : List Production) :
    symbol (names ps) endOfInputName = Grammar.endOfInput := by
  rw [symbol, names_eq_cons, List.idxOf_cons_self]
  rfl

/-- The symbol of a name is where the name stands. -/
theorem getElem?_symbol {ns : List String} (h : name ∈ ns) :
    ns[(symbol ns name).id]? = some name := by
  rw [symbol, List.getElem?_eq_getElem (List.idxOf_lt_length_iff.2 h), List.getElem_idxOf]

/-- Different names have different symbols. -/
theorem symbol_inj {ns : List String} {x y : String} (hx : x ∈ ns) :
    symbol ns x = symbol ns y ↔ x = y := by
  rw [symbol, symbol, Symbol.mk.injEq, List.idxOf_inj hx]

/-! ## Builders -/

theorem filterMap_steps {β : Type} (f : BuilderStep → Option β) (ps : List Production) :
    (steps ps).filterMap f =
      ((names ps).tail.filterMap fun name => f (.createSymbol (some name))) ++
        ps.filterMap fun p => f (productionStep (names ps) p) := by
  simp only [steps, List.filterMap_append, List.filterMap_map]
  rfl

theorem names_builder (ps : List Production) :
    (builder ps).table.names.toList = (names ps).map some := by
  have hcreated : (steps ps).filterMap BuilderStep.created? = (names ps).tail.map some := by
    simp [filterMap_steps, productionStep, BuilderStep.created?]
  rw [builder, Builder.names_ofSteps, hcreated, ← List.map_cons, ← names_eq_cons]

theorem declared?_steps (ps : List Production) :
    (steps ps).filterMap BuilderStep.declared? = ps.map fun p => symbol (names ps) p.lhs := by
  simp [filterMap_steps, productionStep, BuilderStep.declared?]

theorem start?_builder (ps : List Production) :
    (builder ps).start? = ps.head?.map fun p => symbol (names ps) p.lhs := by
  have hchosen : (steps ps).filterMap BuilderStep.chosen? = [] := by
    simp [filterMap_steps, productionStep, BuilderStep.chosen?]
  rw [builder, Builder.start?_ofSteps, hchosen, declared?_steps, List.head?_map]
  rfl

theorem declared_builder (ps : List Production) :
    (builder ps).declared.toList = (ps.map fun p => symbol (names ps) p.lhs).eraseDups := by
  rw [builder, Builder.declared_ofSteps, declared?_steps]

theorem rules_builder (ps : List Production) :
    (builder ps).rules.toList = ps.flatMap fun p => p.alternatives.map fun a =>
      ⟨symbol (names ps) p.lhs, a.names.map (symbol (names ps))⟩ := by
  have hcreated : ((names ps).tail.map fun name => BuilderStep.createSymbol (some name)).flatMap
      BuilderStep.added = [] := by
    refine List.flatMap_eq_nil_iff.2 fun step hstep => ?_
    obtain ⟨name, -, rfl⟩ := List.mem_map.1 hstep
    rfl
  rw [builder, Builder.rules_ofSteps, steps, List.flatMap_append, hcreated, List.nil_append,
    List.flatMap_map]
  simp [productionStep, BuilderStep.added, Function.comp_def]

theorem mem_declared_builder :
    x ∈ (builder ps).declared ↔ ∃ p ∈ ps, symbol (names ps) p.lhs = x := by
  rw [← Array.mem_toList_iff, declared_builder, List.mem_eraseDups, List.mem_map]

theorem mem_rules_builder : rule ∈ (builder ps).rules ↔
    ∃ p ∈ ps, ∃ a ∈ p.alternatives,
      ⟨symbol (names ps) p.lhs, a.names.map (symbol (names ps))⟩ = rule := by
  rw [← Array.mem_toList_iff, rules_builder]
  simp only [List.mem_flatMap, List.mem_map]

/-! ## Names of symbols -/

theorem size_builder (ps : List Production) : (builder ps).table.size = (names ps).length := by
  rw [SymbolTable.size, ← Array.length_toList, names_builder, List.length_map]

theorem issued_symbol (h : name ∈ names ps) :
    (builder ps).table.issued (symbol (names ps) name) = true := by
  simpa [SymbolTable.issued, size_builder, symbol] using List.idxOf_lt_length_iff.2 h

/-- The name of a symbol, whether it has been created or not. -/
theorem displayName_builder (ps : List Production) (x : Symbol) :
    (builder ps).table.displayName x = (names ps)[x.id]?.getD s!"#{x.id}" := by
  rw [SymbolTable.displayName, SymbolTable.nameOf?, ← Array.getElem?_toList, names_builder,
    List.getElem?_map]
  cases (names ps)[x.id]? <;> rfl

/-- The symbol of a name has this name. -/
theorem displayName_symbol (h : name ∈ names ps) :
    (builder ps).table.displayName (symbol (names ps) name) = name := by
  rw [displayName_builder, getElem?_symbol h, Option.getD_some]

theorem map_displayName_map_symbol {xs : List String} (h : ∀ name ∈ xs, name ∈ names ps) :
    (xs.map (symbol (names ps))).map (builder ps).table.displayName = xs := by
  rw [List.map_map]
  exact (List.map_congr_left (g := id) fun name hname => displayName_symbol (h name hname)).trans
    (List.map_id xs)

/-! ## Faults -/

theorem foreign?_symbol (h : name ∈ names ps) :
    (builder ps).foreign? (symbol (names ps) name) = none := by
  simp [Builder.foreign?, issued_symbol h]

theorem exists_name_of_mem_mentioned (h : x ∈ (builder ps).mentioned) :
    ∃ p ∈ ps, ∃ a ∈ p.alternatives, ∃ name ∈ a.names, symbol (names ps) name = x := by
  obtain ⟨rule, hrule, hx⟩ := List.mem_flatMap.1 h
  obtain ⟨p, hp, a, ha, rfl⟩ := mem_rules_builder.1 (Array.mem_toList_iff.1 hrule)
  obtain ⟨name, hname, rfl⟩ := List.mem_map.1 hx
  exact ⟨p, hp, a, ha, name, hname, rfl⟩

/-- Productions of nonterminals other than `$` have no fault. -/
theorem fault?_builder (hlhs : ∀ p ∈ ps, p.lhs ≠ endOfInputName) (hne : ps ≠ []) :
    (builder ps).fault? = none := by
  have hdeclared : (builder ps).declared.toList.findSome? (builder ps).lhsFault? = none := by
    refine List.findSome?_eq_none_iff.2 fun x hx => ?_
    obtain ⟨p, hp, rfl⟩ := mem_declared_builder.1 (Array.mem_toList_iff.1 hx)
    have hend : symbol (names ps) p.lhs ≠ Grammar.endOfInput := by
      rw [← symbol_endOfInputName ps]
      exact fun heq => hlhs p hp ((symbol_inj (lhs_mem_names hp)).1 heq)
    simp [Builder.lhsFault?, foreign?_symbol (lhs_mem_names hp), hend]
  have hmentioned : (builder ps).mentioned.findSome? (builder ps).foreign? = none := by
    refine List.findSome?_eq_none_iff.2 fun x hx => ?_
    obtain ⟨p, hp, a, ha, name, hname, rfl⟩ := exists_name_of_mem_mentioned hx
    exact foreign?_symbol (mem_names_of_alternative hp ha hname)
  obtain ⟨p, ps, rfl⟩ := List.exists_cons_of_ne_nil hne
  simp [Builder.fault?, start?_builder, foreign?_symbol (lhs_mem_names List.mem_cons_self),
    hdeclared, hmentioned]

end Listing

/-! ## Loading -/

/-- What can be computed from a result is true of it. -/
theorem exists_ok_of_any {ε α : Type} {result : Except ε α} (P : α → Prop) [DecidablePred P]
    (h : result.toOption.any (fun x => decide (P x)) = true) : ∃ x, result = .ok x ∧ P x := by
  cases result with
  | error e => cases h
  | ok x => exact ⟨x, rfl, of_decide_eq_true h⟩

namespace Grammar

variable {text : String} {g : Grammar}

theorem name_layout (b : Builder) (start : Symbol) :
    (b.layout start).name = b.table.displayName := rfl

/-- A loaded grammar is laid out by the builder of its productions, from the first left-hand
    side on. -/
theorem load_eq_ok (h : Grammar.load text = .ok g) :
    ∃ p ps, Listing.productions (Listing.read text.toList) = p :: ps ∧
      g = (Listing.builder (p :: ps)).layout
        (Listing.symbol (Listing.names (p :: ps)) p.lhs) := by
  simp only [load] at h
  split at h
  · cases h
  · next hbuild =>
    cases h
    obtain ⟨-, start, hstart, rfl⟩ := Builder.build_eq_ok hbuild
    rw [Listing.start?_builder] at hstart
    cases hps : Listing.productions (Listing.read text.toList) with
    | nil => simp [hps] at hstart
    | cons p ps =>
      simp only [hps, List.head?_cons, Option.map_some, Option.some.injEq] at hstart
      exact ⟨p, ps, rfl, by rw [hstart]⟩

/-- A text with productions, none of them of `$`, is loaded. -/
theorem load_of_productions {p : Production} {ps : List Production}
    (hps : Listing.productions (Listing.read text.toList) = p :: ps)
    (hlhs : ∀ q ∈ p :: ps, q.lhs ≠ endOfInputName) :
    Grammar.load text = .ok ((Listing.builder (p :: ps)).layout
      (Listing.symbol (Listing.names (p :: ps)) p.lhs)) := by
  have hbuild := Builder.build_of_fault? (Listing.fault?_builder hlhs (by simp))
    (Listing.start?_builder (p :: ps))
  simp only [load, hps, hbuild]

theorem built_of_load (h : Grammar.load text = .ok g) : g.Built := by
  simp only [load] at h
  split at h
  · cases h
  · next hbuild =>
    cases h
    exact ⟨_, hbuild⟩

/-- The start symbol of a loaded grammar is a nonterminal. -/
theorem nonterminal_start_of_load (h : Grammar.load text = .ok g) :
    g.isNonterminal g.start = true := by
  obtain ⟨p, ps, -, rfl⟩ := load_eq_ok h
  exact (Builder.contains_nonterminalSet _ _).2
    (Listing.mem_declared_builder.2 ⟨p, List.mem_cons_self, rfl⟩)

end Grammar

end Predictive
