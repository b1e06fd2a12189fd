-- SUMMARY: A loaded grammar that is written and loaded again is the same grammar up to the numbers of its symbols.
import Mathlib.Data.List.Nodup
import Predictive.Proofs.Grammar.Listing
import Predictive.Proofs.Grammar.Reading
import Predictive.Proofs.Grammar.Renaming

/-!
# Round trips

What a loaded grammar is written as has one line for each nonterminal, and is read again as these
productions. They have the names of the grammar, perhaps in another order, so that symbols get other
numbers. But for these numbers the grammar that they make is the one that was written.
-/

namespace Predictive

/-! ## Numbers of names -/

namespace Listing

variable {ns ns' : List String} {name : String}

/-- The symbol that has the name of `x` in a second numbering. What has no name in the first one
    stays as it is. -/
def renumber (ns ns' : List String) (x : Symbol) : Symbol :=
  match ns[x.id]? with
  | none => x
  | some name => symbol ns' name

theorem renumber_symbol (h : name ∈ ns) : renumber ns ns' (symbol ns name) = symbol ns' name := by
  simp only [renumber, getElem?_symbol h]

theorem renumber_of_le {x : Symbol} (h : ns.length ≤ x.id) : renumber ns ns' x = x := by
  simp only [renumber, List.getElem?_eq_none h]

/-- A symbol either has a name or is beyond all those that have one. -/
theorem symbol_cases (hnodup : ns.Nodup) (x : Symbol) :
    (∃ name ∈ ns, symbol ns name = x) ∨ ns.length ≤ x.id := by
  rcases Nat.lt_or_ge x.id ns.length with hlt | hle
  · exact .inl ⟨ns[x.id], List.getElem_mem hlt, by rw [symbol, hnodup.idxOf_getElem]⟩
  · exact .inr hle

/-- Going to a numbering of the same names and back changes no symbol. -/
theorem leftInverse_renumber (hnodup : ns.Nodup) (hperm : ns.Perm ns') :
    Function.LeftInverse (renumber ns' ns) (renumber ns ns') := by
  intro x
  rcases symbol_cases hnodup x with ⟨name, hname, rfl⟩ | hle
  · rw [renumber_symbol hname, renumber_symbol (hperm.mem_iff.1 hname)]
  · rw [renumber_of_le hle, renumber_of_le (hperm.length_eq ▸ hle)]

variable {ps ps' : List Production}

theorem displayName_renumber (hperm : (names ps).Perm (names ps')) (x : Symbol) :
    (builder ps').table.displayName (renumber (names ps) (names ps') x) =
      (builder ps).table.displayName x := by
  rcases symbol_cases (nodup_names ps) x with ⟨name, hname, rfl⟩ | hle
  · rw [renumber_symbol hname, displayName_symbol (hperm.mem_iff.1 hname),
      displayName_symbol hname]
  · rw [renumber_of_le hle, displayName_builder, displayName_builder, List.getElem?_eq_none hle,
      List.getElem?_eq_none (hperm.length_eq ▸ hle)]

/-- The names of all symbols, in the order of their numbers. -/
theorem map_displayName_symbols (ps : List Production) :
    (builder ps).table.symbols.map (builder ps).table.displayName = names ps := by
  refine List.ext_getElem (by simp [SymbolTable.symbols, size_builder]) fun i _ hi => ?_
  simp [SymbolTable.symbols, displayName_builder, hi]

end Listing

/-! ## Written grammars -/

namespace Grammar

/-- The productions that a grammar is written as. -/
def written (g : Grammar) : List Production :=
  g.nonterminals.map fun lhs =>
    ⟨g.name lhs, (g.rulesOf lhs).map fun (_, rule) => .plain (rule.rhs.map g.name)⟩

theorem display_eq_join (g : Grammar) :
    g.display = String.join (g.written.map fun p => p.line ++ "\n") := by
  have hrhs : ∀ rhs : List Symbol, g.rhsText rhs = Alternative.plainText (rhs.map g.name) := by
    simp [rhsText, names, Alternative.plainText]
  simp [display, displayLine, written, Production.line, Alternative.plain, Function.comp_def, hrhs]

end Grammar

namespace Listing

variable {ps : List Production} {p q : Production} {start x : Symbol} {rule : Rule}

/-- One production for each nonterminal, with the rules that were collected for it. -/
theorem written_layout (ps : List Production) (start : Symbol) :
    ((builder ps).layout start).written = ((builder ps).graph.order start).map fun lhs =>
      ⟨(builder ps).table.displayName lhs, ((builder ps).rulesFor lhs).map fun rule =>
        .plain (rule.rhs.map (builder ps).table.displayName)⟩ := by
  rw [Grammar.written, Builder.nonterminals_layout]
  refine List.map_congr_left fun lhs hlhs => ?_
  have hrules := Builder.rulesOf_layout (Builder.nodup_declared (steps ps)) start
    ((Builder.mem_order _ start lhs).1 hlhs)
  rw [builder, ← hrules, List.map_map]
  rfl

/-- Nothing is written that was not read. -/
theorem of_mem_written (h : q ∈ ((builder ps).layout start).written) :
    (∃ p ∈ ps, p.lhs = q.lhs) ∧ ∀ a ∈ q.alternatives, a = .plain a.names ∧
      ∃ p ∈ ps, ∃ a' ∈ p.alternatives, a'.names = a.names := by
  rw [written_layout] at h
  obtain ⟨lhs, hlhs, rfl⟩ := List.mem_map.1 h
  refine ⟨?_, fun a ha => ?_⟩
  · obtain ⟨p, hp, rfl⟩ := mem_declared_builder.1 ((Builder.mem_order _ start lhs).1 hlhs)
    exact ⟨p, hp, (displayName_symbol (lhs_mem_names hp)).symm⟩
  · obtain ⟨rule, hrule, rfl⟩ := List.mem_map.1 ha
    obtain ⟨p, hp, a', ha', rfl⟩ :=
      mem_rules_builder.1 (Array.mem_toList_iff.1 (List.mem_filter.1 hrule).1)
    refine ⟨rfl, p, hp, a', ha', ?_⟩
    exact (map_displayName_map_symbol fun name => mem_names_of_alternative hp ha').symm

/-- Nothing that was read is left out. -/
theorem exists_mem_written (h : p ∈ ps) :
    ∃ q ∈ ((builder ps).layout start).written, q.lhs = p.lhs ∧
      ∀ a ∈ p.alternatives, .plain a.names ∈ q.alternatives := by
  rw [written_layout]
  refine ⟨_, List.mem_map_of_mem ((Builder.mem_order _ start _).2
    (mem_declared_builder.2 ⟨p, h, rfl⟩)), displayName_symbol (lhs_mem_names h), fun a ha => ?_⟩
  have hrule : ⟨symbol (names ps) p.lhs, a.names.map (symbol (names ps))⟩ ∈
      (builder ps).rulesFor (symbol (names ps) p.lhs) := by
    refine List.mem_filter.2 ⟨Array.mem_toList_iff.2 (mem_rules_builder.2 ⟨p, h, a, ha, rfl⟩), ?_⟩
    simp
  refine List.mem_map.2 ⟨_, hrule, ?_⟩
  rw [map_displayName_map_symbol fun name => mem_names_of_alternative h ha]

theorem plain_of_mem_written (hlegible : ∀ p ∈ ps, Legible p)
    (h : q ∈ ((builder ps).layout start).written) : Plain q := by
  obtain ⟨⟨p, hp, hlhs⟩, halternatives⟩ := of_mem_written h
  refine ⟨⟨hlhs ▸ (hlegible p hp).lhs, fun a ha => ?_⟩, fun a ha => (halternatives a ha).1⟩
  obtain ⟨-, p', hp', a', ha', hnames⟩ := halternatives a ha
  exact hnames ▸ (hlegible p' hp').words a' ha'

theorem perm_names_written (ps : List Production) (start : Symbol) :
    (names ps).Perm (names ((builder ps).layout start).written) := by
  refine (List.perm_ext_iff_of_nodup (nodup_names _) (nodup_names _)).2 fun name => ?_
  simp only [mem_names, mentions, List.mem_cons, List.mem_flatMap]
  refine or_congr_right ⟨?_, ?_⟩
  · rintro ⟨p, hp, hname⟩
    obtain ⟨q, hq, hlhs, halternatives⟩ := exists_mem_written hp
    refine ⟨q, hq, hname.imp (fun h => h.trans hlhs.symm) ?_⟩
    rintro ⟨a, ha, hname⟩
    exact ⟨_, halternatives a ha, hname⟩
  · rintro ⟨q, hq, hname⟩
    obtain ⟨⟨p, hp, hlhs⟩, halternatives⟩ := of_mem_written hq
    rcases hname with rfl | ⟨a, ha, hname⟩
    · exact ⟨p, hp, .inl hlhs.symm⟩
    · obtain ⟨-, p', hp', a', ha', hnames⟩ := halternatives a ha
      exact ⟨p', hp', .inr ⟨a', ha', hnames ▸ hname⟩⟩

/-! ## Loading what is written -/

theorem renumber_of_mem_declared (ns : List String) (hx : x ∈ (builder ps).declared) :
    symbol ns ((builder ps).table.displayName x) = renumber (names ps) ns x := by
  obtain ⟨p, hp, rfl⟩ := mem_declared_builder.1 hx
  rw [displayName_symbol (lhs_mem_names hp), renumber_symbol (lhs_mem_names hp)]

theorem rename_of_mem_rules {ns : List String} (hrule : rule ∈ (builder ps).rules) :
    ⟨symbol ns ((builder ps).table.displayName rule.lhs),
      (rule.rhs.map (builder ps).table.displayName).map (symbol ns)⟩ =
      rule.rename (renumber (names ps) ns) := by
  obtain ⟨p, hp, a, ha, rfl⟩ := mem_rules_builder.1 hrule
  have hnames : ∀ name ∈ a.names, name ∈ names ps := fun name => mem_names_of_alternative hp ha
  simp only [Rule.rename, map_displayName_map_symbol hnames, displayName_symbol (lhs_mem_names hp),
    renumber_symbol (lhs_mem_names hp), List.map_map, Rule.mk.injEq, true_and]
  exact List.map_congr_left fun name hname => (renumber_symbol (hnames name hname)).symm

theorem map_lhs_written (ps : List Production) (start : Symbol) (ns : List String) :
    (((builder ps).layout start).written.map fun q => symbol ns q.lhs) =
      ((builder ps).layout start).nonterminals.map (renumber (names ps) ns) := by
  rw [written_layout, Builder.nonterminals_layout, List.map_map]
  exact List.map_congr_left fun x hx =>
    renumber_of_mem_declared ns ((Builder.mem_order _ start x).1 hx)

theorem flatMap_alternatives_written (ps : List Production) (start : Symbol) (ns : List String) :
    (((builder ps).layout start).written.flatMap fun q => q.alternatives.map fun a =>
        (⟨symbol ns q.lhs, a.names.map (symbol ns)⟩ : Rule)) =
      ((builder ps).layout start).rules.toList.map (Rule.rename (renumber (names ps) ns)) := by
  rw [written_layout, Builder.rules_layout, List.flatMap_map, List.map_flatMap]
  refine List.flatMap_congr fun lhs _ => ?_
  rw [List.map_map]
  refine List.map_congr_left fun rule hrule => ?_
  obtain ⟨hmem, hlhs⟩ := List.mem_filter.1 hrule
  rw [← rename_of_mem_rules (Array.mem_toList_iff.1 hmem), beq_iff_eq.1 hlhs]
  rfl

/-- The builder of the written productions has the same nonterminals and rules, in the order in
    which they were laid out. -/
theorem renames_written (ps : List Production) (start : Symbol) :
    Builder.Renames (renumber (names ps) (names ((builder ps).layout start).written)) (builder ps)
      (builder ((builder ps).layout start).written) start := by
  have hρ := (leftInverse_renumber (nodup_names ps) (perm_names_written ps start)).injective
  have hnodup : ((builder ps).layout start).nonterminals.Nodup :=
    Builder.nodup_nonterminals_layout (steps ps) start
  have hend : endOfInputName ∈ names ps := mem_names.2 (.inl rfl)
  refine ⟨?_, ?_, ?_⟩
  · rw [← symbol_endOfInputName ps, renumber_symbol hend, symbol_endOfInputName,
      symbol_endOfInputName]
  · rw [declared_builder, map_lhs_written, eraseDups_of_nodup (List.Nodup.map hρ hnodup)]
  · rw [rules_builder, flatMap_alternatives_written]

end Listing

/-! ## Grammars that differ in numbers only -/

namespace Grammar

/-- A rule with the names of its symbols. -/
def namedRule (g : Grammar) (rule : Rule) : String × List String :=
  (g.name rule.lhs, rule.rhs.map g.name)

/-- The names of all symbols, in the order of their numbers. -/
def symbolNames (g : Grammar) : List String := g.table.symbols.map g.name

/-- The grammars are the same but for the numbers of their symbols. Names tell all symbols apart, so
    there is only one way to renumber them. -/
structure SameByName (g g' : Grammar) : Prop where
  size : g'.table.size = g.table.size
  names : g'.symbolNames.Perm g.symbolNames
  distinct : g.symbolNames.Nodup
  start : g'.name g'.start = g.name g.start
  nonterminals : g'.nonterminals.map g'.name = g.nonterminals.map g.name
  terminals : (g'.terminals.map g'.name).Perm (g.terminals.map g.name)
  rules : ∀ r, (g'.rule? r).map g'.namedRule = (g.rule? r).map g.namedRule

variable {ρ : Symbol → Symbol} {g g' : Grammar}

/-- Renamed grammars have the same terminals if every symbol is the new one for another. -/
theorem Renames.terminals_perm (h : g.Renames ρ g') (hρ : Function.Bijective ρ) :
    g'.terminals.Perm (g.terminals.map ρ) := by
  refine (List.perm_ext_iff_of_nodup (nodup_terminals g')
    (List.Nodup.map hρ.injective (nodup_terminals g))).2 fun y => ?_
  obtain ⟨x, rfl⟩ := hρ.surjective y
  rw [mem_terminals, h.terminals, List.mem_map_of_injective hρ.injective, mem_terminals]

theorem length_symbolNames (g : Grammar) : g.symbolNames.length = g.table.size := by
  simp [symbolNames, SymbolTable.symbols]

/-- Renaming without any change to the names only changes numbers. -/
theorem Renames.sameByName (h : g.Renames ρ g') (hρ : Function.Bijective ρ)
    (hname : ∀ x, g'.name (ρ x) = g.name x) (hnames : g'.symbolNames.Perm g.symbolNames)
    (hdistinct : g.symbolNames.Nodup) : g.SameByName g' where
  size := by rw [← length_symbolNames, ← length_symbolNames, hnames.length_eq]
  names := hnames
  distinct := hdistinct
  start := by rw [h.start, hname]
  nonterminals := by simp [h.nonterminals_eq, hname]
  terminals := by
    have hmap : g.terminals.map g.name = (g.terminals.map ρ).map g'.name := by simp [hname]
    rw [hmap]
    exact (h.terminals_perm hρ).map g'.name
  rules r := by
    have hnamed : ∀ rule : Rule, g'.namedRule (rule.rename ρ) = g.namedRule rule := by
      simp [namedRule, Rule.rename, Function.comp_def, hname]
    simp [h.rule?_eq, Function.comp_def, hnamed]

/-- The first line is the one of the first nonterminal. -/
theorem exists_written_eq_cons {x : Symbol} (h : g.nonterminals.head? = some x) :
    ∃ q qs, g.written = q :: qs ∧ q.lhs = g.name x := by
  obtain ⟨rest, hrest⟩ := List.head?_eq_some_iff.1 h
  exact ⟨_, _, by rw [written, hrest, List.map_cons], rfl⟩

theorem symbolNames_layout (ps : List Production) (start : Symbol) :
    ((Listing.builder ps).layout start).symbolNames = Listing.names ps :=
  Listing.map_displayName_symbols ps

section Written

variable (ps : List Production) (start : Symbol)

/-- The symbol of the written grammar that has the same name. -/
def reloadedSymbol : Symbol → Symbol :=
  Listing.renumber (Listing.names ps)
    (Listing.names ((Listing.builder ps).layout start).written)

/-- The grammar of the written productions. -/
def reloaded : Grammar :=
  (Listing.builder ((Listing.builder ps).layout start).written).layout
    (reloadedSymbol ps start start)

theorem bijective_reloadedSymbol : Function.Bijective (reloadedSymbol ps start) := by
  have hperm := Listing.perm_names_written ps start
  have hleft := Listing.leftInverse_renumber (Listing.nodup_names ps) hperm
  have hright := Listing.leftInverse_renumber (Listing.nodup_names _) hperm.symm
  exact ⟨hleft.injective, hright.surjective⟩

theorem name_reloaded (x : Symbol) : (reloaded ps start).name (reloadedSymbol ps start x) =
    ((Listing.builder ps).layout start).name x := by
  rw [reloaded, name_layout, name_layout]
  exact Listing.displayName_renumber (Listing.perm_names_written ps start) x

theorem renames_reloaded :
    ((Listing.builder ps).layout start).Renames (reloadedSymbol ps start) (reloaded ps start) :=
  (Listing.renames_written ps start).layout (bijective_reloadedSymbol ps start).injective
    (fun _ => Builder.lhs_mem_declared) (Builder.nodup_declared _)

theorem sameByName_reloaded :
    ((Listing.builder ps).layout start).SameByName (reloaded ps start) := by
  refine (renames_reloaded ps start).sameByName (bijective_reloadedSymbol ps start)
    (name_reloaded ps start) ?_ ?_
  · rw [reloaded, symbolNames_layout, symbolNames_layout]
    exact (Listing.perm_names_written ps start).symm
  · rw [symbolNames_layout]
    exact Listing.nodup_names ps

variable {ps start}

theorem load_display_layout (hlegible : ∀ p ∈ ps, Listing.Legible p)
    (hstart : start ∈ (Listing.builder ps).declared) :
    Grammar.load ((Listing.builder ps).layout start).display = .ok (reloaded ps start) := by
  have hplain : ∀ q ∈ ((Listing.builder ps).layout start).written, Listing.Plain q :=
    fun q => Listing.plain_of_mem_written hlegible
  have hread := Listing.productions_read_join hplain
  rw [← display_eq_join] at hread
  have hhead : ((Listing.builder ps).layout start).nonterminals.head? = some start := by
    rw [Builder.nonterminals_layout]
    exact Builder.head?_order hstart
  obtain ⟨q, qs, hcons, hlhs⟩ := exists_written_eq_cons hhead
  have hsymbol := Listing.renumber_of_mem_declared (Listing.names (q :: qs)) hstart
  rw [← name_layout _ start, ← hlhs] at hsymbol
  rw [reloaded, reloadedSymbol, hcons, ← hsymbol]
  rw [hcons] at hread hplain
  exact load_of_productions hread fun q hq => (hplain q hq).lhs.ne_endOfInputName

end Written

/-- What a loaded grammar is written as loads again, as the same grammar but for the numbers of its
    symbols, and is written the same way then. -/
theorem load_display {text : String} (h : Grammar.load text = .ok g) :
    ∃ g', Grammar.load g.display = .ok g' ∧ g.SameByName g' ∧ g'.display = g.display := by
  obtain ⟨p, ps, hps, rfl⟩ := load_eq_ok h
  have hlegible : ∀ q ∈ p :: ps, Listing.Legible q :=
    fun q hq => Listing.legible_of_mem_productions (hps ▸ hq)
  have hstart : Listing.symbol (Listing.names (p :: ps)) p.lhs ∈
      (Listing.builder (p :: ps)).declared :=
    Listing.mem_declared_builder.2 ⟨p, List.mem_cons_self, rfl⟩
  refine ⟨_, load_display_layout hlegible hstart, sameByName_reloaded _ _, ?_⟩
  exact (renames_reloaded _ _).display_eq (bijective_reloadedSymbol _ _).injective
    (name_reloaded _ _)

/-- Arrows in names on the right, an arrow and a bar in names on the left, `$` and empty
    alternatives, a nonterminal without any, and nonterminals in another order than the one in which
    they are written. -/
def intricateText : String :=
  "S → T y→z | $ w\nC|D →\nno arrow\nT -> x->y epsilon U\n" ++ "U → ε | C->E\nA->B → C || w"

def intricateDisplay : String :=
  "S → T y→z | $ w\nT → x->y U\nU → ε | C->E\nC|D →\nA->B → C | w\n"

/-- The symbols of the written grammar have other numbers. -/
theorem load_display_intricate : ∃ g g', Grammar.load intricateText = .ok g ∧
    g.display = intricateDisplay ∧ Grammar.load g.display = .ok g' ∧ g.SameByName g' ∧
    g'.display = g.display ∧ g'.symbolNames ≠ g.symbolNames := by
  obtain ⟨g, hload, hdisplay, hother⟩ := exists_ok_of_any
    (fun g => g.display = intricateDisplay ∧
      (Grammar.load g.display).toOption.all (fun g' => g'.symbolNames != g.symbolNames) = true)
    (by decide +kernel : (Grammar.load intricateText).toOption.any _ = true)
  obtain ⟨g', hload', hsame, hdisplay'⟩ := load_display hload
  refine ⟨g, g', hload, hdisplay, hload', hsame, hdisplay', ?_⟩
  simpa [hload', Except.toOption] using hother

end Grammar

end Predictive
