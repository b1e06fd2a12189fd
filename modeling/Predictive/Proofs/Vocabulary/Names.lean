-- SUMMARY: The names in a vocabulary, the terminals they stand for, and what the order of names tells about extensions.
import Mathlib.Data.List.Induction
import Predictive.Proofs.Symbol.Bits
import Predictive.Vocabulary

/-!
# Names

The vocabulary of a grammar has the names of its terminals other than `$`. Where several terminals
have one name, it stands for the one with the greatest ID. Whether some name begins with a text is
decided by one name alone, since between the text and a name that it begins there is no name that it
does not begin.
-/

namespace Predictive

namespace Grammar

/-- The symbol is a terminal other than the end of input, and has this name. -/
structure Named (g : Grammar) (x : Symbol) (name : String) : Prop where
  terminal : g.isTerminal x = true
  ne_endOfInput : x ≠ endOfInput
  nameOf? : g.table.nameOf? x = some name

/-- Some terminal other than the end of input has this name. -/
def IsName (g : Grammar) (name : String) : Prop :=
  ∃ x, g.Named x name

/-- The terminal with the greatest ID among those with this name. -/
structure StandsFor (g : Grammar) (name : String) (x : Symbol) : Prop where
  named : g.Named x name
  last : ∀ y, g.Named y name → y.id ≤ x.id

variable {g : Grammar} {x y : Symbol} {name : String}

theorem StandsFor.eq (hx : g.StandsFor name x) (hy : g.StandsFor name y) : x = y :=
  Symbol.mk.injEq .. ▸ Nat.le_antisymm (hy.last x hx.named) (hx.last y hy.named)

end Grammar

namespace Vocabulary

/-! ## The vocabulary of a grammar -/

variable {g : Grammar} {x : Symbol} {name : String}

/-- The terminals with a name, in the order of their IDs. -/
def bearers (g : Grammar) (name : String) : List Symbol :=
  (g.terminals.filter (· != Grammar.endOfInput)).filter fun x => g.table.nameOf? x = some name

theorem mem_bearers : x ∈ bearers g name ↔ g.Named x name := by
  simp only [bearers, List.mem_filter, bne_iff_ne, decide_eq_true_eq]
  refine ⟨?_, ?_⟩
  · rintro ⟨⟨hterm, hne⟩, hname⟩
    exact ⟨SymbolSet.mem_toList.1 hterm, hne, hname⟩
  · rintro ⟨hterm, hne, hname⟩
    exact ⟨⟨SymbolSet.mem_toList.2 hterm, hne⟩, hname⟩

theorem pairwise_bearers (g : Grammar) (name : String) :
    (bearers g name).Pairwise fun x y => x.id < y.id :=
  ((SymbolSet.pairwise_toList g.terminalSet).filter _).filter _

/-- Of the terminals with a name the last one is kept. -/
theorem getElem?_ofGrammar_eq : (ofGrammar g)[name]? = (bearers g name).getLast? := by
  unfold ofGrammar bearers
  generalize g.terminals.filter (· != Grammar.endOfInput) = xs
  induction xs using List.reverseRecOn with
  | nil => simp
  | append_singleton xs x ih =>
    rw [List.foldl_append, List.foldl_cons, List.foldl_nil, List.filter_append]
    cases hx : g.table.nameOf? x with
    | none => simp [hx, ih]
    | some name' =>
      by_cases hname : name' = name
      · simp [hx, hname]
      · simp [hx, hname, Std.ExtTreeMap.getElem?_insert, ih]

theorem standsFor_of_getElem? (h : (ofGrammar g)[name]? = some x) : g.StandsFor name x := by
  rw [getElem?_ofGrammar_eq] at h
  obtain ⟨init, hinit⟩ := List.getLast?_eq_some_iff.1 h
  have hordered := hinit ▸ pairwise_bearers g name
  refine ⟨mem_bearers.1 (by simp [hinit]), fun y hy => ?_⟩
  rcases List.mem_append.1 (hinit ▸ mem_bearers.2 hy) with hy | hy
  · exact Nat.le_of_lt ((List.pairwise_append.1 hordered).2.2 y hy x (by simp))
  · obtain rfl := List.mem_singleton.1 hy
    exact Nat.le_refl _

theorem isSome_getElem?_ofGrammar : (ofGrammar g)[name]?.isSome = true ↔ g.IsName name := by
  rw [getElem?_ofGrammar_eq, List.getLast?_isSome, ← List.isEmpty_eq_false_iff,
    List.isEmpty_eq_false_iff_exists_mem]
  exact exists_congr fun x => mem_bearers

/-- A name is looked up to the terminal that it stands for. -/
theorem getElem?_ofGrammar : (ofGrammar g)[name]? = some x ↔ g.StandsFor name x := by
  refine ⟨standsFor_of_getElem?, fun h => ?_⟩
  obtain ⟨y, hy⟩ := Option.isSome_iff_exists.1 (isSome_getElem?_ofGrammar.2 ⟨x, h.named⟩)
  rw [hy, (standsFor_of_getElem? hy).eq h]

theorem mem_ofGrammar : name ∈ ofGrammar g ↔ g.IsName name := by
  rw [Std.ExtTreeMap.mem_iff_isSome_getElem?, isSome_getElem?_ofGrammar]

theorem isName_eq (g : Grammar) : g.IsName = (· ∈ ofGrammar g) :=
  funext fun _ => propext mem_ofGrammar.symm

instance (g : Grammar) : DecidablePred g.IsName :=
  fun _ => decidable_of_iff _ mem_ofGrammar

/-! ## Extensions -/

/-- Some name begins with the text. -/
def Opens (IsName : String → Prop) (text : List Char) : Prop :=
  ∃ name, IsName name ∧ text <+: name.toList

/-- Between a text and one that begins with it there are only texts that begin with it. -/
theorem prefix_of_between {text between after : List Char} (hlow : ¬ between < text)
    (hhigh : ¬ text ++ after < between) : text <+: between := by
  induction text generalizing between with
  | nil => exact List.nil_prefix
  | cons c text ih =>
    cases between with
    | nil => exact absurd (List.nil_lt_cons c text) hlow
    | cons d between =>
      rw [List.cons_append] at hhigh
      rw [List.cons_lt_cons_iff, not_or, not_and] at hlow hhigh
      obtain rfl : c = d := Char.le_antisymm (Char.not_lt.1 hlow.1) (Char.not_lt.1 hhigh.1)
      exact List.cons_prefix_cons.2 ⟨rfl, ih (hlow.2 rfl) (hhigh.2 rfl)⟩

theorem compare_eq_lt_iff {a b : String} : compare a b = .lt ↔ a.toList < b.toList :=
  compareOfLessAndEq_eq_lt.trans String.lt_iff

/-- The least name that is not below the text decides whether some name begins with it. -/
theorem canExtend_iff (v : Vocabulary) (text : String) :
    v.canExtend text = true ↔ Opens (· ∈ v) text.toList := by
  have hge : ∀ name : String, (compare name text).isGE = true ↔ ¬ name.toList < text.toList := by
    intro name
    rw [Ordering.isGE_iff_ne_lt, compare_eq_lt_iff]
  have hnotBelow (name : String) (hbegins : text.toList <+: name.toList) :
      (compare name text).isGE = true := (hge name).2 (List.not_lt.2 hbegins.le)
  unfold canExtend Opens
  cases hleast : v.keys.find? fun name => (compare name text).isGE with
  | none =>
    refine iff_of_false Bool.false_ne_true ?_
    rintro ⟨name, hname, hbegins⟩
    have hbelow := List.find?_eq_none.1 hleast name (Std.ExtTreeMap.mem_keys.2 hname)
    exact hbelow (hnotBelow name hbegins)
  | some least =>
    obtain ⟨hlow, before, after, hkeys, hbelow⟩ := List.find?_eq_some_iff_append.1 hleast
    have hordered := hkeys ▸ Std.ExtTreeMap.ordered_keys (t := v)
    rw [List.isPrefixOf_iff_prefix]
    refine ⟨fun hbegins => ⟨least, Std.ExtTreeMap.mem_keys.1 (by simp [hkeys]), hbegins⟩, ?_⟩
    rintro ⟨name, hname, hbegins⟩
    have hmem : name ∈ before ++ least :: after := hkeys ▸ Std.ExtTreeMap.mem_keys.2 hname
    rcases List.mem_append.1 hmem with hname | hname
    · simpa [hnotBelow name hbegins] using hbelow name hname
    · rcases List.mem_cons.1 hname with rfl | hname
      · exact hbegins
      · obtain ⟨more, hmore⟩ := hbegins
        have hlt := List.rel_of_pairwise_cons (List.pairwise_append.1 hordered).2.1 hname
        have hhigh : ¬ name.toList < least.toList := List.lt_asymm (compare_eq_lt_iff.1 hlt)
        exact prefix_of_between ((hge least).1 hlow) (hmore ▸ hhigh)

instance (g : Grammar) : DecidablePred (Opens g.IsName) := fun text =>
  decidable_of_iff ((ofGrammar g).canExtend (String.ofList text)) <| by
    rw [canExtend_iff, String.toList_ofList, isName_eq]

end Vocabulary

end Predictive
