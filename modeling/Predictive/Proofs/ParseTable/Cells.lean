-- SUMMARY: What every cell of a parse table holds, decided by the claims of the rules and by FOLLOW alone.
import Mathlib.Data.List.ProdSigma
import Predictive.Proofs.Grammar.History
import Predictive.Proofs.Lookahead.Follow
import Predictive.Proofs.ParseTable.Conflicts

/-!
# Cells

A table is filled in three rounds: cells to explore everywhere, rules in the cells that they claim,
extraction in what is left of the cells in FOLLOW. In the end a cell holds the last of the rules
that claim it, however often and in whatever order they did. Rules may claim cells for terminals
that the grammar does not have, if the sets are those of another one; such cells are there for the
rules only.
-/

namespace Predictive.ParseTable

variable {g : Grammar} {first : FirstSets} {follow : FollowSets} {r : RuleId} {a x : Symbol}
  {cell? : Option Cell}

/-- Rule number `r` claims the cell, and none of the rules after it does. -/
structure ClaimsLast (g : Grammar) (first : FirstSets) (follow : FollowSets) (r : RuleId)
    (a x : Symbol) : Prop where
  claims : Claims g first follow r a x
  last : ∀ r', Claims g first follow r' a x → r'.index ≤ r.index

/-- What a cell holds, if there is one. -/
inductive Holds (g : Grammar) (first : FirstSets) (follow : FollowSets) (a x : Symbol) :
    Option Cell → Prop where
  | rule {r : RuleId} (last : ClaimsLast g first follow r a x) :
    Holds g first follow a x (some (.rule r))
  | extract (unclaimed : ∀ r, ¬ Claims g first follow r a x)
    (nonterminal : g.isNonterminal a = true) (terminal : g.isTerminal x = true)
    (follows : follow.sets.Has a x) :
    Holds g first follow a x (some .extract)
  | explore (unclaimed : ∀ r, ¬ Claims g first follow r a x)
    (nonterminal : g.isNonterminal a = true) (terminal : g.isTerminal x = true)
    (stray : ¬ follow.sets.Has a x) :
    Holds g first follow a x (some .explore)
  | none (unclaimed : ∀ r, ¬ Claims g first follow r a x)
    (outside : ¬ (g.isNonterminal a = true ∧ g.isTerminal x = true)) :
    Holds g first follow a x none

theorem ClaimsLast.eq {r' : RuleId} (h : ClaimsLast g first follow r a x)
    (h' : ClaimsLast g first follow r' a x) : r = r' :=
  RuleId.mk.injEq .. ▸ Nat.le_antisymm (h'.last r h.claims) (h.last r' h'.claims)

/-- A rule in a cell is the last one that claims it. -/
theorem claimsLast_of_get? (h : (withSets g first follow).get? a x = some (.rule r)) :
    ClaimsLast g first follow r a x := by
  refine ⟨claims_of_get? h, fun r' hr' => ?_⟩
  rw [get?, withSets, rule_foldl_extractAt] at h
  have hmem : (⟨⟨a, x⟩, r'⟩ : Claim) ∈ claims g first follow := mem_claims.2 hr'
  exact le_of_cells_foldl_place (ascending_claims g first follow) h _ hmem rfl

theorem get?_of_claimsLast (h : ClaimsLast g first follow r a x) :
    (withSets g first follow).get? a x = some (.rule r) := by
  obtain ⟨r', hr'⟩ := exists_rule_of_claims h.claims
  rw [hr', h.eq (claimsLast_of_get? hr')]

theorem mem_keys_iff (hwf : g.WellFormed) : a ∈ g.nonterminals ∧ x ∈ g.terminals ↔
    g.isNonterminal a = true ∧ g.isTerminal x = true := by
  rw [hwf.mem_nonterminals, g.mem_terminals]

/-- Every pair of symbols is decided. -/
theorem holds_get? (hwf : g.WellFormed) (first : FirstSets) (follow : FollowSets) (a x : Symbol) :
    Holds g first follow a x ((withSets g first follow).get? a x) := by
  by_cases hclaimed : ∃ r, Claims g first follow r a x
  · obtain ⟨r, hr⟩ := hclaimed
    obtain ⟨r', hr'⟩ := exists_rule_of_claims hr
    rw [hr']
    exact .rule (claimsLast_of_get? hr')
  · have hunclaimed := not_exists.1 hclaimed
    rw [get?_of_unclaimed hunclaimed]
    split
    · next hinside =>
      obtain ⟨hnonterm, hterm⟩ := (mem_keys_iff hwf).1 hinside
      split
      · next hfollows => exact .extract hunclaimed hnonterm hterm hfollows
      · next hstray => exact .explore hunclaimed hnonterm hterm hstray
    · next houtside => exact .none hunclaimed fun h => houtside ((mem_keys_iff hwf).2 h)

/-- The cells are as they are decided. -/
theorem get?_of_holds (hwf : g.WellFormed) (h : Holds g first follow a x cell?) :
    (withSets g first follow).get? a x = cell? := by
  cases h with
  | rule last => exact get?_of_claimsLast last
  | extract unclaimed nonterminal terminal follows =>
    have hinside := (mem_keys_iff hwf).2 ⟨nonterminal, terminal⟩
    rw [get?_of_unclaimed unclaimed, if_pos hinside, if_pos follows]
  | explore unclaimed nonterminal terminal stray =>
    have hinside := (mem_keys_iff hwf).2 ⟨nonterminal, terminal⟩
    rw [get?_of_unclaimed unclaimed, if_pos hinside, if_neg stray]
  | none unclaimed outside =>
    rw [get?_of_unclaimed unclaimed, if_neg fun h => outside ((mem_keys_iff hwf).1 h)]

/-! ## Tables with their own sets -/

/-- With its own sets a grammar has no rule that claims a cell for a symbol of another kind. -/
theorem Claims.classified (hwf : g.WellFormed)
    (h : Claims g (.ofGrammar g) (.ofGrammar g (.ofGrammar g)) r a x) :
    g.isNonterminal a = true ∧ g.isTerminal x = true := by
  obtain ⟨rule, hrule, rfl, hfirst | ⟨-, hfollow⟩⟩ := h
  · exact ⟨hwf.nonterminal_of_rule? hrule,
      (FirstSets.sound_ofGrammar hwf).terminal_of_mem_ofString hfirst⟩
  · exact ⟨hwf.nonterminal_of_rule? hrule, FollowSets.terminal_of_has hwf hfollow⟩

theorem isSome_get?_ofGrammar (hwf : g.WellFormed) :
    ((ofGrammar g).get? a x).isSome = true ↔ g.isNonterminal a = true ∧ g.isTerminal x = true := by
  refine ⟨fun hsome => ?_, fun ⟨ha, hx⟩ => ?_⟩
  · have hholds := holds_get? hwf (.ofGrammar g) (.ofGrammar g (.ofGrammar g)) a x
    change Holds _ _ _ _ _ ((ofGrammar g).get? a x) at hholds
    cases hcell : (ofGrammar g).get? a x with
    | none => simp [hcell] at hsome
    | some cell =>
      rw [hcell] at hholds
      cases hholds with
      | rule last => exact last.claims.classified hwf
      | extract _ nonterminal terminal => exact ⟨nonterminal, terminal⟩
      | explore _ nonterminal terminal => exact ⟨nonterminal, terminal⟩
  · exact isSome_get? _ _ ((hwf.mem_nonterminals a).2 ha) ((g.mem_terminals x).2 hx)

/-- There are as many cells as there are pairs of a nonterminal and a terminal. -/
theorem size_ofGrammar (hbuilt : g.Built) :
    (ofGrammar g).cells.size = g.nonterminals.length * g.terminals.length := by
  have hwf := hbuilt.wellFormed
  have hinj : Function.Injective fun p : Symbol × Symbol => Slot.mk p.1 p.2 := by
    rintro ⟨a, x⟩ ⟨a', x'⟩ h
    simpa using h
  have hnodup : ((g.nonterminals ×ˢ g.terminals).map fun p => Slot.mk p.1 p.2).Nodup :=
    (hbuilt.nodup_nonterminals.product g.nodup_terminals).map hinj
  have hkeys : (ofGrammar g).cells.keys.Perm
      ((g.nonterminals ×ˢ g.terminals).map fun p => Slot.mk p.1 p.2) := by
    refine (List.perm_ext_iff_of_nodup Std.ExtTreeMap.nodup_keys hnodup).2 fun ⟨a, x⟩ => ?_
    rw [Std.ExtTreeMap.mem_keys, Std.ExtTreeMap.mem_iff_isSome_getElem?]
    refine (isSome_get?_ofGrammar hwf).trans ?_
    simp [hwf.mem_nonterminals, g.mem_terminals]
  rw [← Std.ExtTreeMap.length_keys, hkeys.length_eq, List.length_map, List.length_product]

/-- A table tells for every pair of symbols which rule, or which kind of recovery, the claims and
    the FOLLOW sets decide on, whatever grammar the sets are from. With its own sets a grammar has a
    cell for each pair of a nonterminal and a terminal, and no other one. -/
theorem get?_iff_holds (hbuilt : g.Built) :
    (∀ first follow a x cell?, (withSets g first follow).get? a x = cell? ↔
      Holds g first follow a x cell?) ∧
    (∀ a x, ((ofGrammar g).get? a x).isSome = true ↔
      g.isNonterminal a = true ∧ g.isTerminal x = true) ∧
    (ofGrammar g).cells.size = g.nonterminals.length * g.terminals.length := by
  have hwf := hbuilt.wellFormed
  refine ⟨fun first follow a x cell? => ⟨?_, get?_of_holds hwf⟩,
    fun a x => isSome_get?_ofGrammar hwf, size_ofGrammar hbuilt⟩
  rintro rfl
  exact holds_get? hwf first follow a x

/-- With stray sets, the rule `S → ε` gets a cell for a symbol that the grammar does not have. -/
theorem get?_iff_holds_stray :
    let first := FollowSets.strayFirst
    let follow := FollowSets.ofGrammar .nested first
    Grammar.nested.Built ∧
    Holds .nested first follow ⟨1⟩ ⟨7⟩ (some (.rule ⟨1⟩)) ∧
    Holds .nested first follow ⟨1⟩ ⟨2⟩ (some .explore) ∧
    Holds .nested first follow ⟨2⟩ ⟨7⟩ none ∧
    (ofGrammar .nested).cells.size = 3 := by
  intro first follow
  obtain ⟨hget, -, hsize⟩ := get?_iff_holds Grammar.built_nested
  refine ⟨Grammar.built_nested, (hget _ _ _ _ _).1 (by decide +kernel),
    (hget _ _ _ _ _).1 (by decide +kernel), (hget _ _ _ _ _).1 (by decide +kernel), ?_⟩
  rw [hsize]
  decide +kernel

end Predictive.ParseTable
