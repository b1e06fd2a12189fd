-- SUMMARY: Inputs are split into tokens in exactly one way if there is one, and otherwise not at all.
import Mathlib.Data.List.Forall2
import Predictive.Proofs.Grammar.Built
import Predictive.Proofs.Vocabulary
import Predictive.Proofs.Vocabulary.Scan

/-!
# Tokens

The tokens of a grammar are a prefix code, so an input is made up of blanks and tokens in at most
one way. The tokenizer accepts exactly the inputs that are, and answers with the terminals that the
names of these tokens stand for. Names with a blank in them, and those that a shorter name begins,
are never found.
-/

namespace Predictive

namespace Vocabulary

/-! ## Pieces -/

inductive Piece where
  | blank (c : Char)
  | token (name : String)
deriving DecidableEq, Repr

namespace Piece

def text : Piece → List Char
  | .blank c => [c]
  | .token name => name.toList

def name? : Piece → Option String
  | .blank _ => none
  | .token name => some name

def Valid (IsName : String → Prop) : Piece → Prop
  | .blank c => Text.isBlank c = true
  | .token name => IsToken IsName name

end Piece

/-- The pieces make up the text. -/
structure Splits (IsName : String → Prop) (ps : List Piece) (text : List Char) : Prop where
  valid : ∀ p ∈ ps, p.Valid IsName
  text : ps.flatMap Piece.text = text

/-- The names of the tokens among the pieces. -/
def tokenNames (ps : List Piece) : List String := ps.filterMap Piece.name?

variable {IsName : String → Prop} {name name' : String} {p p' : Piece} {ps ps' : List Piece}
  {text before after rest rest' : List Char}

theorem Splits.nil : Splits IsName [] [] := ⟨by simp, rfl⟩

theorem Splits.cons (hp : p.Valid IsName) (h : Splits IsName ps text) :
    Splits IsName (p :: ps) (p.text ++ text) :=
  ⟨List.forall_mem_cons.2 ⟨hp, h.valid⟩, by rw [List.flatMap_cons, h.text]⟩

theorem Splits.of_cons (h : Splits IsName (p :: ps) text) :
    p.Valid IsName ∧ ∃ rest, text = p.text ++ rest ∧ Splits IsName ps rest := by
  obtain ⟨hp, hps⟩ := List.forall_mem_cons.1 h.valid
  exact ⟨hp, _, h.text.symm, hps, rfl⟩

/-! ## There is one split at most -/

/-- No token begins another one. -/
theorem IsToken.eq_of_isPrefix (h : IsToken IsName name) (h' : IsToken IsName name')
    (hbegins : name.toList <+: name'.toList) : name = name' := by
  by_contra hne
  refine h'.minimal name.toList hbegins h.nonempty (fun heq => hne (String.toList_inj.1 heq)) ?_
  rw [String.ofList_toList]
  exact h.isName

/-- No piece begins another one. -/
theorem Piece.Valid.eq_of_isPrefix (h : p.Valid IsName) (h' : p'.Valid IsName)
    (hbegins : p.text <+: p'.text) : p = p' := by
  cases p with
  | blank c =>
    have hc : Text.isBlank c = true := h
    cases p' with
    | blank d => simpa [Piece.text] using hbegins
    | token name => simp [h'.noBlank c (hbegins.subset (by simp [Piece.text]))] at hc
  | token name =>
    cases p' with
    | blank c =>
      have hc : Text.isBlank c = true := h'
      obtain ⟨d, hd⟩ := List.exists_mem_of_ne_nil _ h.nonempty
      obtain rfl : d = c := by simpa [Piece.text] using hbegins.subset hd
      simp [h.noBlank d hd] at hc
    | token name' => rw [IsToken.eq_of_isPrefix h h' hbegins]

theorem Piece.Valid.text_ne_nil (h : p.Valid IsName) : p.text ≠ [] := by
  cases p with
  | blank c => simp [Piece.text]
  | token name => exact h.nonempty

/-- A text begins with one piece at most. -/
theorem Piece.Valid.eq_of_append (h : p.Valid IsName) (h' : p'.Valid IsName)
    (heq : p.text ++ rest = p'.text ++ rest') : p = p' ∧ rest = rest' := by
  have hp : p.text <+: p.text ++ rest := List.prefix_append _ _
  have hp' : p'.text <+: p.text ++ rest := heq ▸ List.prefix_append _ _
  obtain rfl : p = p' := by
    rcases List.prefix_or_prefix_of_prefix hp hp' with hbegins | hbegins
    · exact h.eq_of_isPrefix h' hbegins
    · exact (h'.eq_of_isPrefix h hbegins).symm
  exact ⟨rfl, List.append_cancel_left heq⟩

theorem Splits.unique (h : Splits IsName ps text) (h' : Splits IsName ps' text) : ps = ps' := by
  induction ps generalizing ps' text with
  | nil =>
    obtain rfl : text = [] := h.text.symm
    cases ps' with
    | nil => rfl
    | cons p' ps' =>
      obtain ⟨hp', rest, hrest, -⟩ := h'.of_cons
      exact absurd (List.append_eq_nil_iff.1 hrest.symm).1 hp'.text_ne_nil
  | cons p ps ih =>
    obtain ⟨hp, rest, rfl, hrest⟩ := h.of_cons
    cases ps' with
    | nil => exact absurd (List.append_eq_nil_iff.1 h'.text.symm).1 hp.text_ne_nil
    | cons p' ps' =>
      obtain ⟨hp', rest', heq, hrest'⟩ := h'.of_cons
      obtain ⟨rfl, rfl⟩ := hp.eq_of_append hp' heq
      rw [ih hrest hrest']

/-! ## Scanning pieces -/

/-- What a scan finds in pieces that begin at a byte offset. -/
def lexemes (v : Vocabulary) : Nat → List Piece → List Lexeme
  | _, [] => []
  | begin, .blank c :: ps => lexemes v (begin + c.utf8Size) ps
  | begin, .token name :: ps =>
    (v[name]?.map fun x => ⟨name, begin, x⟩).toList ++ lexemes v (begin + name.utf8ByteSize) ps

variable {v : Vocabulary} {c : Char}

theorem IsToken.exists_getElem? (h : IsToken (· ∈ v) name) : ∃ x, v[name]? = some x :=
  Option.isSome_iff_exists.1 (Std.ExtTreeMap.mem_iff_isSome_getElem?.1 h.isName)

/-- The scan goes on behind the pieces as if nothing had been there, but for the offset. -/
theorem scanFrom_pieces (h : Splits (· ∈ v) ps text) (begin : Nat) (rest : List Char) :
    v.scanFrom [] begin begin (text ++ rest) =
      (v.scanFrom [] (begin + byteSize text) (begin + byteSize text) rest).prepend
        (lexemes v begin ps) := by
  induction ps generalizing text begin with
  | nil =>
    obtain rfl : text = [] := h.text.symm
    rfl
  | cons p ps ih =>
    obtain ⟨hp, text, rfl, htext⟩ := h.of_cons
    cases p with
    | blank c =>
      have hc : Text.isBlank c = true := hp
      rw [Piece.text, List.singleton_append, List.cons_append, scanFrom]
      simp only [hc, List.isEmpty_nil, if_true]
      rw [ih htext, byteSize_cons, Nat.add_assoc, lexemes]
    | token name =>
      have hname : IsToken (· ∈ v) name := hp
      obtain ⟨x, hx⟩ := hname.exists_getElem?
      rw [Piece.text, List.append_assoc, scanFrom_token hname hx, ih htext, byteSize_append,
        byteSize_toList, Nat.add_assoc, lexemes, hx]
      simp [Scan.prepend]

/-- The tokens are found in their order. -/
theorem forall₂_lexemes (h : Splits (· ∈ v) ps text) (begin : Nat) :
    List.Forall₂ (fun name x => v[name]? = some x) (tokenNames ps)
      ((lexemes v begin ps).map Lexeme.terminal) := by
  induction ps generalizing text begin with
  | nil => exact .nil
  | cons p ps ih =>
    obtain ⟨hp, rest, -, hrest⟩ := h.of_cons
    cases p with
    | blank c => exact ih hrest _
    | token name =>
      have hname : IsToken (· ∈ v) name := hp
      obtain ⟨x, hx⟩ := hname.exists_getElem?
      rw [lexemes, hx]
      exact .cons hx (ih hrest _)

/-! ## Every input -/

/-- An input that is not at its end goes on with a piece or is blocked. -/
theorem exists_piece_or_blocks (v : Vocabulary) (c : Char) (rest : List Char) :
    (∃ (p : Piece) (after : List Char), c :: rest = p.text ++ after ∧ p.Valid (· ∈ v)) ∨
      ∃ text after, c :: rest = text ++ after ∧ Blocks (· ∈ v) text after := by
  by_cases hc : Text.isBlank c = true
  · exact .inl ⟨.blank c, rest, rfl, hc⟩
  · rcases Pending.nil.push (Bool.eq_false_iff.2 hc) with htoken | hpending | hblocks
    · exact .inl ⟨.token _, rest, by rw [Piece.text, String.toList_ofList]; rfl, htoken⟩
    · rcases hpending.exists_token_or_blocks (by simp) rest with
        ⟨name, after, hinput, htoken⟩ | hblocked
      · exact .inl ⟨.token name, after, hinput, htoken⟩
      · exact .inr hblocked
    · exact .inr ⟨[c], rest, rfl, hblocks rest⟩

/-- Every input is made up of pieces, and after them it is at its end or blocked. -/
theorem exists_splits (v : Vocabulary) (input : List Char) :
    ∃ ps before rest, input = before ++ rest ∧ Splits (· ∈ v) ps before ∧
      (rest = [] ∨ ∃ text after, rest = text ++ after ∧ Blocks (· ∈ v) text after) := by
  induction hlength : input.length using Nat.strongRecOn generalizing input with
  | ind n ih =>
    cases input with
    | nil => exact ⟨[], [], [], rfl, .nil, .inl rfl⟩
    | cons c input =>
      rcases exists_piece_or_blocks v c input with ⟨p, after, hinput, hp⟩ | hblocked
      · have hshorter : after.length < n := by
          have := List.length_pos_iff.2 hp.text_ne_nil
          rw [← hlength, hinput, List.length_append]
          omega
        obtain ⟨ps, before, rest, rfl, hbefore, hrest⟩ := ih _ hshorter after rfl
        exact ⟨p :: ps, p.text ++ before, rest, by rw [hinput, List.append_assoc],
          hbefore.cons hp, hrest⟩
      · exact ⟨[], [], c :: input, rfl, .nil, .inr hblocked⟩

end Vocabulary

namespace Grammar

open Vocabulary

variable {g : Grammar} {input : String} {ps : List Piece} {before text after : List Char}
  {x : Symbol} {xs : List Symbol}

/-! ## Tokenizing -/

theorem tokenize_of_splits (h : Splits g.IsName ps input.toList) :
    ∃ xs, g.tokenize input = .ok xs ∧ List.Forall₂ g.StandsFor (tokenNames ps) xs := by
  rw [isName_eq] at h
  have hscan : (ofGrammar g).scan input = ⟨lexemes (ofGrammar g) 0 ps, none⟩ := by
    have hpieces := scanFrom_pieces h 0 []
    rw [List.append_nil] at hpieces
    simp [scan, hpieces, scanFrom, Scan.prepend]
  refine ⟨(lexemes (ofGrammar g) 0 ps).map Lexeme.terminal, by simp [tokenize, hscan], ?_⟩
  exact (forall₂_lexemes h 0).imp fun _ _ => getElem?_ofGrammar.1

theorem tokenize_of_blocks (hsplits : Splits g.IsName ps before)
    (hblocks : Blocks g.IsName text after) (hinput : input.toList = before ++ (text ++ after)) :
    g.tokenize input = .error ⟨String.ofList text, byteSize before⟩ := by
  rw [isName_eq] at hsplits hblocks
  have hscan := scanFrom_pieces hsplits 0 (text ++ after)
  rw [scanFrom_blocks hblocks, Nat.zero_add] at hscan
  simp [tokenize, scan, hinput, hscan, Scan.prepend]

theorem exists_splits_or_blocks (g : Grammar) (input : String) :
    (∃ ps, Splits g.IsName ps input.toList) ∨ ∃ ps before text after,
      input.toList = before ++ (text ++ after) ∧ Splits g.IsName ps before ∧
        Blocks g.IsName text after := by
  rw [isName_eq]
  obtain ⟨ps, before, rest, hinput, hsplits, rfl | ⟨text, after, rfl, hblocks⟩⟩ :=
    exists_splits (ofGrammar g) input.toList
  · exact .inl ⟨ps, by rwa [hinput, List.append_nil]⟩
  · exact .inr ⟨ps, before, text, after, hinput, hsplits, hblocks⟩

/-- The tokenizer accepts the inputs that are made up of pieces. -/
theorem exists_tokenize_iff :
    (∃ xs, g.tokenize input = .ok xs) ↔ ∃ ps, Splits g.IsName ps input.toList := by
  refine ⟨?_, ?_⟩
  · rintro ⟨xs, hxs⟩
    rcases g.exists_splits_or_blocks input with
      hsplits | ⟨ps, before, text, after, hinput, hsplits, hblocks⟩
    · exact hsplits
    · rw [tokenize_of_blocks hsplits hblocks hinput] at hxs
      cases hxs
  · rintro ⟨ps, hps⟩
    obtain ⟨xs, hxs, -⟩ := tokenize_of_splits hps
    exact ⟨xs, hxs⟩

theorem tokenize_eq_ok_iff :
    g.tokenize input = .ok xs ↔
      ∃ ps, Splits g.IsName ps input.toList ∧ List.Forall₂ g.StandsFor (tokenNames ps) xs := by
  refine ⟨fun h => ?_, ?_⟩
  · obtain ⟨ps, hps⟩ := exists_tokenize_iff.1 ⟨xs, h⟩
    obtain ⟨xs', hxs', hstand⟩ := tokenize_of_splits hps
    obtain rfl : xs = xs' := by simpa [h] using hxs'
    exact ⟨ps, hps, hstand⟩
  · rintro ⟨ps, hps, hstand⟩
    obtain ⟨xs', hxs', hstand'⟩ := tokenize_of_splits hps
    have hunique : Relator.RightUnique g.StandsFor := fun _ _ _ hx hy => hx.eq hy
    rw [hxs', List.right_unique_forall₂' hunique hstand hstand']

/-! ## Writing terminals down -/

/-- The terminal can be written down, with blanks before it: its name is a token, which stands for
    this terminal and not for a later one. -/
structure Spellable (g : Grammar) (gap : String) (x : Symbol) : Prop where
  gap : ∀ c ∈ gap.toList, Text.isBlank c = true
  token : IsToken g.IsName (g.name x)
  standsFor : g.StandsFor (g.name x) x

/-- The names of terminals, each with what comes before it, and what comes last. -/
def spell (g : Grammar) : List (String × Symbol) → String → String
  | [], last => last
  | (gap, x) :: rest, last => gap ++ g.name x ++ g.spell rest last

theorem splits_blanks {IsName : String → Prop} {gap : List Char}
    (hgap : ∀ c ∈ gap, Text.isBlank c = true) (h : Splits IsName ps text) :
    ∃ ps', Splits IsName ps' (gap ++ text) ∧ tokenNames ps' = tokenNames ps := by
  induction gap with
  | nil => exact ⟨ps, h, rfl⟩
  | cons c gap ih =>
    obtain ⟨hc, hgap⟩ := List.forall_mem_cons.1 hgap
    obtain ⟨ps', hps', hnames⟩ := ih hgap
    exact ⟨.blank c :: ps', hps'.cons hc, hnames⟩

theorem splits_spell {spaced : List (String × Symbol)} {last : String}
    (hspaced : ∀ p ∈ spaced, g.Spellable p.1 p.2)
    (hlast : ∀ c ∈ last.toList, Text.isBlank c = true) :
    ∃ ps, Splits g.IsName ps (g.spell spaced last).toList ∧
      tokenNames ps = spaced.map fun p => g.name p.2 := by
  induction spaced with
  | nil => simpa [spell, tokenNames] using splits_blanks hlast Splits.nil
  | cons p spaced ih =>
    obtain ⟨hp, hspaced⟩ := List.forall_mem_cons.1 hspaced
    obtain ⟨ps, hps, hnames⟩ := ih hspaced
    have htoken : Piece.Valid g.IsName (.token (g.name p.2)) := hp.token
    obtain ⟨ps', hps', hnames'⟩ := splits_blanks hp.gap (hps.cons htoken)
    refine ⟨ps', ?_, ?_⟩
    · simpa [spell, Piece.text] using hps'
    · simpa [tokenNames, Piece.name?, ← hnames] using hnames'

/-- The tokenizer accepts what is made up of blanks and tokens, for which there is one way only, and
    answers with the terminals that the names stand for; `$` is not among them. Terminals that are
    written down by such names, with blanks or nothing between them, come back. -/
theorem tokenize_iff_splits (g : Grammar) :
    (∀ input, (∃ xs, g.tokenize input = .ok xs) ↔ ∃ ps, Splits g.IsName ps input.toList) ∧
    (∀ text ps ps', Splits g.IsName ps text → Splits g.IsName ps' text → ps = ps') ∧
    (∀ input xs, g.tokenize input = .ok xs ↔ ∃ ps, Splits g.IsName ps input.toList ∧
      List.Forall₂ g.StandsFor (tokenNames ps) xs) ∧
    (∀ input xs, g.tokenize input = .ok xs → endOfInput ∉ xs) ∧
    (∀ spaced last, (∀ p ∈ spaced, g.Spellable p.1 p.2) →
      (∀ c ∈ last.toList, Text.isBlank c = true) →
      g.tokenize (g.spell spaced last) = .ok (spaced.map Prod.snd)) := by
  refine ⟨fun _ => exists_tokenize_iff, fun _ _ _ h h' => h.unique h',
    fun _ _ => tokenize_eq_ok_iff, fun input xs h hmem => ?_, fun spaced last hspaced hlast => ?_⟩
  · exact (terminal_of_tokenize h _ hmem).2 rfl
  · obtain ⟨ps, hps, hnames⟩ := splits_spell hspaced hlast
    refine tokenize_eq_ok_iff.2 ⟨ps, hps, ?_⟩
    rw [hnames, List.forall₂_map_left_iff, List.forall₂_map_right_iff, List.forall₂_same]
    exact fun p hp => (hspaced p hp).standsFor

/-! ## A grammar with many names -/

/-- The steps that collect a rule with the terminals `a`, `ab`, another `a`, one with an empty name,
    `x y`, `é`, and one without a name. -/
def crowdedSteps : List BuilderStep :=
  [.createSymbol (some "S"), .createSymbol (some "a"), .createSymbol (some "ab"),
    .createSymbol (some "a"), .createSymbol (some ""), .createSymbol (some "x y"),
    .createSymbol (some "é"), .createSymbol none,
    .addRules ⟨1⟩ [[⟨2⟩, ⟨3⟩, ⟨4⟩, ⟨5⟩, ⟨6⟩, ⟨7⟩, ⟨8⟩]]]

def crowded : Grammar := (Builder.ofSteps crowdedSteps).layout ⟨1⟩

/-- The second `a` takes the place of the first one, and hides `ab`. -/
theorem tokenize_iff_splits_crowded :
    crowded.Built ∧ crowded.Spellable "\t" ⟨4⟩ ∧ crowded.Spellable "" ⟨7⟩ ∧
    crowded.tokenize (crowded.spell [("\t", ⟨4⟩), ("", ⟨7⟩)] " ") = .ok [⟨4⟩, ⟨7⟩] ∧
    ¬ ∃ ps, Splits crowded.IsName ps "a ab".toList := by
  have hstands : ∀ name x, (ofGrammar crowded)[name]? = some x → crowded.StandsFor name x :=
    fun _ _ => getElem?_ofGrammar.1
  have ha : crowded.Spellable "\t" ⟨4⟩ :=
    ⟨List.all_eq_true.1 rfl, by decide +kernel, hstands _ _ (by decide +kernel)⟩
  have he : crowded.Spellable "" ⟨7⟩ :=
    ⟨List.all_eq_true.1 rfl, by decide +kernel, hstands _ _ (by decide +kernel)⟩
  obtain ⟨haccepts, -, -, -, hspell⟩ := tokenize_iff_splits crowded
  have hbuilt : crowded.Built :=
    ⟨crowdedSteps, Builder.build_of_fault? (by decide +kernel) rfl⟩
  have hback := hspell [("\t", ⟨4⟩), ("", ⟨7⟩)] " " (by simp [ha, he]) (List.all_eq_true.1 rfl)
  refine ⟨hbuilt, ha, he, hback, fun hsplits => ?_⟩
  obtain ⟨xs, hxs⟩ := (haccepts _).2 hsplits
  have herror : crowded.tokenize "a ab" = .error ⟨"b", 3⟩ := by decide +kernel
  simp [herror] at hxs

end Grammar

end Predictive
