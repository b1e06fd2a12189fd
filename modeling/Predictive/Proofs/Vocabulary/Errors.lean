-- SUMMARY: The error of an input that is not split into tokens: which text it names, and where.
import Predictive.Proofs.Vocabulary.Tokens

/-!
# Lexical errors

An input has an error exactly if a text in it blocks the scan behind a part of the input that the
tokenizer accepts by itself. The error names this text and the byte offset at which it begins. There
is one such text at most. What comes behind it makes no difference if it begins no name.
-/

namespace Predictive.Grammar

open Vocabulary

/-- The text of the error stands between `before` and `after` in the input, at the offset of the
    error, and blocks the scan there. -/
structure Pinpoints (g : Grammar) (input : String) (e : LexError) (before after : String) :
    Prop where
  input : input = before ++ e.text ++ after
  offset : before.utf8ByteSize = e.offset
  accepted : ∃ xs, g.tokenize before = .ok xs
  blocks : Blocks g.IsName e.text.toList after.toList

variable {g : Grammar} {input before after : String} {e e' : LexError}

theorem tokenize_of_pinpoints (h : g.Pinpoints input e before after) :
    g.tokenize input = .error e := by
  obtain ⟨ps, hps⟩ := exists_tokenize_iff.1 h.accepted
  have hinput : input.toList = before.toList ++ (e.text.toList ++ after.toList) := by
    simp [h.input]
  rw [tokenize_of_blocks hps h.blocks hinput, byteSize_toList, h.offset, String.ofList_toList]

theorem exists_pinpoints (h : g.tokenize input = .error e) :
    ∃ before after, g.Pinpoints input e before after := by
  rcases g.exists_splits_or_blocks input with
    ⟨ps, hps⟩ | ⟨ps, before, text, after, hinput, hsplits, hblocks⟩
  · obtain ⟨xs, hxs, -⟩ := tokenize_of_splits hps
    rw [h] at hxs
    cases hxs
  · obtain rfl : e = ⟨String.ofList text, byteSize before⟩ := by
      simpa [h] using tokenize_of_blocks hsplits hblocks hinput
    refine ⟨String.ofList before, String.ofList after, ?_, rfl, ?_, ?_⟩
    · simp [← String.toList_inj, hinput]
    · exact exists_tokenize_iff.2 ⟨ps, by rwa [String.toList_ofList]⟩
    · simpa using hblocks

theorem tokenize_eq_error_iff :
    g.tokenize input = .error e ↔ ∃ before after, g.Pinpoints input e before after :=
  ⟨exists_pinpoints, fun ⟨_, _, h⟩ => tokenize_of_pinpoints h⟩

/-- The text of an error begins and ends between two characters. -/
theorem Pinpoints.isValid (h : g.Pinpoints input e before after) :
    String.Pos.Raw.IsValid input ⟨e.offset⟩ ∧
      String.Pos.Raw.IsValid input ⟨e.offset + e.text.utf8ByteSize⟩ := by
  rw [← h.offset]
  refine ⟨String.Pos.Raw.isValid_iff_exists_append.2 ⟨before, e.text ++ after, ?_, rfl⟩,
    String.Pos.Raw.isValid_iff_exists_append.2 ⟨before ++ e.text, after, h.input, ?_⟩⟩
  · rw [h.input, String.append_assoc]
  · rw [String.rawEndPos, String.utf8ByteSize_append]

/-- A text that begins no name blocks the scan whatever comes behind it. -/
theorem Pinpoints.change_after (h : g.Pinpoints input e before after)
    (hopens : ¬ Opens g.IsName e.text.toList) (after' : String) :
    g.Pinpoints (before ++ e.text ++ after') e before after' :=
  ⟨rfl, h.offset, h.accepted, h.blocks.nonempty, h.blocks.noBlank, h.blocks.unnamed,
    h.blocks.opens, .inl hopens⟩

/-- The tokenizer answers with an error exactly if it pinpoints a text at which the scan is blocked.
    An input has one error at most; its text lies between two character boundaries, and if no name
    begins with it, every input that is the same up to its end has the same error. -/
theorem tokenize_error_iff_pinpoints (g : Grammar) :
    (∀ input e, g.tokenize input = .error e ↔
      ∃ before after, g.Pinpoints input e before after) ∧
    (∀ input e e' before after before' after', g.Pinpoints input e before after →
      g.Pinpoints input e' before' after' → e = e') ∧
    (∀ input e before after, g.Pinpoints input e before after →
      String.Pos.Raw.IsValid input ⟨e.offset⟩ ∧
        String.Pos.Raw.IsValid input ⟨e.offset + e.text.utf8ByteSize⟩) ∧
    (∀ input e before after, g.Pinpoints input e before after →
      ¬ Opens g.IsName e.text.toList →
        ∀ after', g.tokenize (before ++ e.text ++ after') = .error e) := by
  refine ⟨fun _ _ => tokenize_eq_error_iff, ?_, fun _ _ _ _ h => h.isValid, ?_⟩
  · intro input e e' before after before' after' h h'
    have herror := tokenize_of_pinpoints h
    rw [tokenize_of_pinpoints h'] at herror
    exact (Except.error.inj herror).symm
  · intro input e before after h hopens after'
    exact tokenize_of_pinpoints (h.change_after hopens after')

/-- In the crowded grammar `x` begins `x y` but ends too early, behind a character of two bytes; and
    `b` begins nothing. -/
theorem tokenize_error_iff_pinpoints_crowded :
    crowded.tokenize "é\ta x" = .error ⟨"x", 5⟩ ∧
    ∀ after, crowded.tokenize ("aé " ++ "b" ++ after) = .error ⟨"b", 4⟩ := by
  obtain ⟨herror, -, -, hafter⟩ := tokenize_error_iff_pinpoints crowded
  have hx : crowded.Pinpoints "é\ta x" ⟨"x", 5⟩ "é\ta " "" :=
    ⟨rfl, rfl, ⟨[⟨7⟩, ⟨4⟩], by decide +kernel⟩, by decide +kernel⟩
  have hb : crowded.Pinpoints "aé bad" ⟨"b", 4⟩ "aé " "ad" :=
    ⟨rfl, rfl, ⟨[⟨4⟩, ⟨7⟩], by decide +kernel⟩, by decide +kernel⟩
  have hopens : ¬ Opens crowded.IsName "b".toList := by decide +kernel
  refine ⟨(herror _ _).2 ⟨_, _, hx⟩, fun after => ?_⟩
  have hstable := hafter _ _ _ _ hb hopens after
  exact hstable

end Predictive.Grammar
