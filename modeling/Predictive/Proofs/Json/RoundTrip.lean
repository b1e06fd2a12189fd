-- SUMMARY: Every JSON value is read back from its written form, and from nothing less than all of it.
import Mathlib.Data.List.Basic
import Mathlib.Data.List.TakeDrop
import Predictive.Json.Reader

/-!
# Written JSON reads back

A reader is given the written form of something and whatever comes after it, and has to stop right
between the two. Strings, arrays and objects bring their own end. A number does not: it ends where
the text ends or where a character comes that can stand between values.
-/

namespace Predictive.Json

/-! ## Numbers -/

/-- The text is empty, or begins with what can come after a value. -/
def Delimited (rest : List Char) : Prop :=
  ∀ c ∈ rest.head?, c = ',' ∨ c = ']' ∨ c = '}'

theorem delimited_nil : Delimited [] := by simp [Delimited]

theorem delimited_cons {c : Char} (rest : List Char) (h : c = ',' ∨ c = ']' ∨ c = '}') :
    Delimited (c :: rest) := by simpa [Delimited] using h

variable {rest : List Char}

theorem takeDigits?_append {digits : List Char} (hne : digits ≠ [])
    (hdigits : ∀ c ∈ digits, c.isDigit = true) (hrest : Delimited rest) :
    takeDigits? (digits ++ rest) = some (digits, rest) := by
  have hstop : rest.takeWhile Char.isDigit = [] ∧ rest.dropWhile Char.isDigit = rest := by
    cases rest with
    | nil => simp
    | cons c rest =>
      have hc : c.isDigit = false := by
        rcases hrest c rfl with rfl | rfl | rfl <;> decide
      simp [hc]
  have hspan : (digits ++ rest).span Char.isDigit = (digits, rest) := by
    rw [List.span_eq_takeWhile_dropWhile, List.takeWhile_append_of_pos hdigits,
      List.dropWhile_append_of_pos hdigits, hstop.1, hstop.2, List.append_nil]
  rw [takeDigits?, hspan]
  cases digits with
  | nil => exact absurd rfl hne
  | cons d digits => rfl

/-- Only zero is written with a zero in front. -/
theorem head?_toDigits {n : Nat} (hn : n ≠ 0) : (Nat.toDigits 10 n).head? ≠ some '0' := by
  induction n using Nat.strongRecOn with
  | ind n ih =>
    rcases Nat.lt_or_ge n 10 with hlt | hge
    · rw [Nat.toDigits_of_lt_base hlt]
      have hdigit : ∀ n < 10, n ≠ 0 → n.digitChar ≠ '0' := by decide
      simpa using hdigit n hlt hn
    · rw [Nat.toDigits_of_base_le (by decide) hge,
        List.head?_append_of_ne_nil _ Nat.toDigits_ne_nil]
      exact ih (n / 10) (by omega) (by omega)

theorem readUnsigned?_toDigits (n : Nat) (hrest : Delimited rest) :
    readUnsigned? (Nat.toDigits 10 n ++ rest) = some (.natural n, rest) := by
  have hdigits : takeDigits? (Nat.toDigits 10 n ++ rest) = some (Nat.toDigits 10 n, rest) :=
    takeDigits?_append Nat.toDigits_ne_nil
      (fun c hc => Nat.isDigit_of_mem_toDigits (by decide) (by decide) hc) hrest
  have hzero : ¬ ((Nat.toDigits 10 n).head? = some '0' ∧ (Nat.toDigits 10 n).length ≠ 1) := by
    rintro ⟨hhead, hlength⟩
    by_cases hn : n = 0
    · simp [hn] at hlength
    · exact head?_toDigits hn hhead
  have hfraction : skipFraction? rest = some (false, rest) := by
    cases rest with
    | nil => rfl
    | cons c rest => rcases hrest c rfl with rfl | rfl | rfl <;> rfl
  have hexponent : skipExponent? rest = some (false, rest) := by
    cases rest with
    | nil => rfl
    | cons c rest => rcases hrest c rfl with rfl | rfl | rfl <;> rfl
  simp [readUnsigned?, hdigits, hzero, hfraction, hexponent, Nat.ofDigitChars_ten_toDigits]

/-! ## Strings -/

/-- The piece that a character is written as. -/
def pieceOf (c : Char) : Piece := if c.toNat < 0x20 then .unit c.toNat else .char c

theorem readPieces?_escapeCode {n : Nat} (hn : n < 0x20) (cs : List Char) :
    readPieces? (escapeCode n ++ cs) =
      (readPieces? cs).map fun (pieces, rest) => (.unit n :: pieces, rest) := by
  have hdigits : ∀ n < 0x20, ∃ a b c d, escapeCode n = ['\\', 'u', a, b, c, d] ∧
      hexCode? a b c d = some n := fun n hn =>
    ⟨_, _, _, _, rfl, (by decide : ∀ n < 0x20, hexCode? (Nat.digitChar (n / Nat.pow 16 3 % 16))
      (Nat.digitChar (n / Nat.pow 16 2 % 16)) (Nat.digitChar (n / Nat.pow 16 1 % 16))
      (Nat.digitChar (n / Nat.pow 16 0 % 16)) = some n) n hn⟩
  obtain ⟨a, b, c, d, hescape, hcode⟩ := hdigits n hn
  rw [hescape]
  cases hcs : readPieces? cs <;> simp [readPieces?, hcode, hcs]

theorem readPieces?_writeChar (c : Char) (cs : List Char) :
    readPieces? (writeChar c ++ cs) =
      (readPieces? cs).map fun (pieces, rest) => (pieceOf c :: pieces, rest) := by
  unfold writeChar
  split
  · next hquote =>
    cases hcs : readPieces? cs <;> simp [readPieces?, shortEscape?, pieceOf, hquote, hcs]
  · next hquote =>
    split
    · next hslash =>
      cases hcs : readPieces? cs <;> simp [readPieces?, shortEscape?, pieceOf, hslash, hcs]
    · next hslash =>
      split
      · next hcontrol => rw [readPieces?_escapeCode hcontrol, pieceOf, if_pos hcontrol]
      · next hcontrol => simp [readPieces?, pieceOf, hslash, hcontrol]

theorem assemble?_unit {n : Nat} (hn : n < 0x20) (pieces : List Piece) :
    assemble? (.unit n :: pieces) = (assemble? pieces).map (Char.ofNat n :: ·) := by
  have hhigh : isHighSurrogate n = false := by simp [isHighSurrogate]; omega
  have hlow : isLowSurrogate n = false := by simp [isLowSurrogate]; omega
  rcases pieces with - | ⟨c | low, pieces⟩ <;> simp [assemble?, hhigh, hlow]

theorem assemble?_map_pieceOf (cs : List Char) : assemble? (cs.map pieceOf) = some cs := by
  induction cs with
  | nil => rfl
  | cons c cs ih =>
    rw [List.map_cons, pieceOf]
    split
    · next hcontrol => rw [assemble?_unit hcontrol, ih, Option.map_some, Char.ofNat_toNat]
    · rw [assemble?, ih, Option.map_some]

theorem readPieces?_flatMap (cs rest : List Char) :
    readPieces? (cs.flatMap writeChar ++ '"' :: rest) = some (cs.map pieceOf, rest) := by
  induction cs with
  | nil => rfl
  | cons c cs ih =>
    rw [List.flatMap_cons, List.append_assoc, readPieces?_writeChar, ih, Option.map_some,
      List.map_cons]

/-- A written string begins with a quote, and the rest of it reads back. -/
theorem readText?_writeString (text? : Option String) :
    ∃ body, writeString text? = '"' :: body ∧
      ∀ rest, readText? (body ++ rest) = some (text?, rest) := by
  cases text? with
  | none => exact ⟨_, rfl, fun rest => rfl⟩
  | some s =>
    refine ⟨_, rfl, fun rest => ?_⟩
    rw [List.append_assoc, List.singleton_append, readText?, readPieces?_flatMap, Option.map_some]
    dsimp only
    rw [assemble?_map_pieceOf, Option.map_some, String.ofList_toList]

/-! ## Values -/

/-- Induction over values: an array or an object may use what is known of its parts. -/
theorem induct {P : Json → Prop} (null : P .null) (bool : ∀ b, P (.bool b))
    (natural : ∀ n, P (.natural n)) (otherNumber : P .otherNumber)
    (string : ∀ text?, P (.string text?))
    (array : ∀ items, (∀ item ∈ items, P item) → P (.array items))
    (object : ∀ members, (∀ member ∈ members, P member.2) → P (.object members)) (j : Json) :
    P j :=
  Json.rec (motive_1 := P) (motive_2 := fun items => ∀ item ∈ items, P item)
    (motive_3 := fun members => ∀ member ∈ members, P member.2)
    (motive_4 := fun member => P member.2)
    null bool natural otherNumber string array object
    (by simp) (fun _ _ hitem hitems => List.forall_mem_cons.2 ⟨hitem, hitems⟩)
    (by simp) (fun _ _ hmember hmembers => List.forall_mem_cons.2 ⟨hmember, hmembers⟩)
    (fun _ _ hvalue => hvalue) j

theorem exists_toDigits_eq_cons (n : Nat) :
    ∃ d ds, Nat.toDigits 10 n = d :: ds ∧ d.isDigit = true := by
  obtain ⟨d, ds, hds⟩ := List.exists_cons_of_ne_nil (Nat.toDigits_ne_nil (n := n) (b := 10))
  exact ⟨d, ds, hds, Nat.isDigit_of_mem_toDigits (by decide) (by decide) (hds ▸ List.mem_cons_self)⟩

/-- A written value begins neither with a blank nor with the end of an array. -/
theorem exists_write_eq_cons (j : Json) :
    ∃ c cs, j.write = c :: cs ∧ isSpace c = false ∧ c ≠ ']' := by
  cases j with
  | null => exact ⟨'n', _, rfl, by decide, by decide⟩
  | bool b =>
    cases b with
    | true => exact ⟨'t', _, rfl, by decide, by decide⟩
    | false => exact ⟨'f', _, rfl, by decide, by decide⟩
  | natural n =>
    obtain ⟨d, ds, hds, hdigit⟩ := exists_toDigits_eq_cons n
    refine ⟨d, ds, by rw [write, hds], ?_, ?_⟩
    · simp only [isSpace, Bool.or_eq_false_iff, beq_eq_false_iff_ne]
      refine ⟨⟨⟨?_, ?_⟩, ?_⟩, ?_⟩ <;> rintro rfl <;> simp at hdigit
    · rintro rfl
      simp at hdigit
  | otherNumber => exact ⟨'-', _, rfl, by decide, by decide⟩
  | string text? =>
    obtain ⟨body, hbody, -⟩ := readText?_writeString text?
    exact ⟨'"', body, hbody, by decide, by decide⟩
  | array items =>
    cases items with
    | nil => exact ⟨'[', _, rfl, by decide, by decide⟩
    | cons item items => exact ⟨'[', _, by rw [write], by decide, by decide⟩
  | object members =>
    cases members with
    | nil => exact ⟨'{', _, by rw [write], by decide, by decide⟩
    | cons member members => exact ⟨'{', _, by rw [write], by decide, by decide⟩

theorem skipSpace_cons {c : Char} (hc : isSpace c = false) (cs : List Char) :
    skipSpace (c :: cs) = c :: cs := by
  simp [skipSpace, hc]

theorem skipSpace_write (j : Json) (rest : List Char) :
    skipSpace (j.write ++ rest) = j.write ++ rest := by
  obtain ⟨c, cs, hwrite, hspace, -⟩ := exists_write_eq_cons j
  rw [hwrite, List.cons_append, skipSpace_cons hspace]

theorem readValue?_natural (n fuel : Nat) (hrest : Delimited rest) :
    readValue? (fuel + 1) (Nat.toDigits 10 n ++ rest) = some (.natural n, rest) := by
  have hspace : skipSpace (Nat.toDigits 10 n ++ rest) = Nat.toDigits 10 n ++ rest := by
    simpa only [write] using skipSpace_write (.natural n) rest
  obtain ⟨d, ds, hds, hdigit⟩ := exists_toDigits_eq_cons n
  have hne : ∀ c : Char, c.isDigit = false → d ≠ c := by
    rintro c hc rfl
    simp [hc] at hdigit
  rw [readValue?, hspace, hds, List.cons_append]
  -- A digit begins no other kind of value.
  split
  · next h => exact absurd (List.cons.inj h).1 (hne _ (by decide))
  · next h => exact absurd (List.cons.inj h).1 (hne _ (by decide))
  · next h => exact absurd (List.cons.inj h).1 (hne _ (by decide))
  · next h => exact absurd (List.cons.inj h).1 (hne _ (by decide))
  · next h => exact absurd (List.cons.inj h).1 (hne _ (by decide))
  · next h => exact absurd (List.cons.inj h).1 (hne _ (by decide))
  · next h => exact absurd (List.cons.inj h).1 (hne _ (by decide))
  · rw [← List.cons_append, ← hds, readUnsigned?_toDigits n hrest]

/-! ## Items and members -/

variable {fuel : Nat} {cs : List Char} {item value : Json} {items : List Json}
  {key : Option String} {members : List (Option String × Json)}

theorem readItems?_last (h : readValue? fuel cs = some (item, ']' :: rest)) :
    readItems? (fuel + 1) cs = some ([item], rest) := by
  simp [readItems?, h, skipSpace, isSpace]

theorem readItems?_more {cs' : List Char} (h : readValue? fuel cs = some (item, ',' :: cs'))
    (hmore : readItems? fuel cs' = some (items, rest)) :
    readItems? (fuel + 1) cs = some (item :: items, rest) := by
  simp [readItems?, h, hmore, skipSpace, isSpace]

theorem readMembers?_last (h : readValue? fuel cs = some (value, '\x7d' :: rest)) :
    readMembers? (fuel + 1) (writeString key ++ ':' :: cs) = some ([(key, value)], rest) := by
  obtain ⟨body, hbody, hkey⟩ := readText?_writeString key
  simp [readMembers?, hbody, hkey, h, skipSpace, isSpace, expect?]

theorem readMembers?_more {cs' : List Char} (h : readValue? fuel cs = some (value, ',' :: cs'))
    (hmore : readMembers? fuel cs' = some (members, rest)) :
    readMembers? (fuel + 1) (writeString key ++ ':' :: cs) =
      some ((key, value) :: members, rest) := by
  obtain ⟨body, hbody, hkey⟩ := readText?_writeString key
  simp [readMembers?, hbody, hkey, h, hmore, skipSpace, isSpace, expect?]

/-- The value is read back from its written form, if the reader may take two steps for each
    character of it. -/
def Reads (j : Json) : Prop :=
  ∀ fuel rest, 2 * j.write.length ≤ fuel → Delimited rest →
    readValue? fuel (j.write ++ rest) = some (j, rest)

theorem readItems?_write (hitem : Reads item) (hitems : ∀ item ∈ items, Reads item)
    (rest : List Char) (hfuel : 2 * (item.write.length + (writeItems items).length) ≤ fuel + 1) :
    readItems? (fuel + 1) (item.write ++ (writeItems items ++ rest)) =
      some (item :: items, rest) := by
  induction items generalizing item fuel with
  | nil =>
    simp only [writeItems, List.length_singleton] at hfuel ⊢
    exact readItems?_last (hitem fuel _ (by omega) (delimited_cons rest (by simp)))
  | cons item' items ih =>
    obtain ⟨hitem', hitems⟩ := List.forall_mem_cons.1 hitems
    simp only [writeItems, List.length_cons, List.length_append] at hfuel
    obtain ⟨fuel, rfl⟩ := Nat.exists_eq_add_of_le' (show 1 ≤ fuel by omega)
    rw [writeItems, List.cons_append, List.append_assoc]
    exact readItems?_more (hitem _ _ (by omega) (delimited_cons _ (by simp)))
      (ih hitem' hitems (by omega))

theorem readMembers?_write (hvalue : Reads value)
    (hmembers : ∀ member ∈ members, Reads member.2) (rest : List Char)
    (hfuel : 2 * ((writeString key).length + value.write.length +
      (writeMembers members).length) ≤ fuel + 1) :
    readMembers? (fuel + 1)
        (writeString key ++ ':' :: (value.write ++ (writeMembers members ++ rest))) =
      some ((key, value) :: members, rest) := by
  induction members generalizing key value fuel with
  | nil =>
    simp only [writeMembers, List.length_singleton] at hfuel ⊢
    exact readMembers?_last (hvalue fuel _ (by omega) (delimited_cons rest (by simp)))
  | cons member members ih =>
    obtain ⟨key', value'⟩ := member
    obtain ⟨hvalue', hmembers⟩ := List.forall_mem_cons.1 hmembers
    simp only [writeMembers, List.length_cons, List.length_append] at hfuel
    obtain ⟨fuel, rfl⟩ := Nat.exists_eq_add_of_le' (show 1 ≤ fuel by omega)
    rw [writeMembers, List.cons_append, List.append_assoc, List.cons_append, List.append_assoc]
    exact readMembers?_more (hvalue _ _ (by omega) (delimited_cons _ (by simp)))
      (ih hvalue' hmembers (by omega))

/-! ## Values of every kind -/

theorem readValue?_array (h : readItems? fuel (item.write ++ cs) = some (items, rest)) :
    readValue? (fuel + 1) ('[' :: (item.write ++ cs)) = some (.array items, rest) := by
  obtain ⟨c, cs', hwrite, hspace, hne⟩ := exists_write_eq_cons item
  have hopen : isSpace '[' = false := by decide
  rw [hwrite, List.cons_append] at h ⊢
  simp [readValue?, skipSpace, hopen, hspace, hne, h]

theorem readValue?_object
    (h : readMembers? fuel (writeString key ++ cs) = some (members, rest)) :
    readValue? (fuel + 1) ('\x7b' :: (writeString key ++ cs)) = some (.object members, rest) := by
  obtain ⟨body, hbody, -⟩ := readText?_writeString key
  rw [hbody, List.cons_append] at h ⊢
  simp [readValue?, skipSpace, isSpace, h]

/-- A written value has a character, so there is a step to be taken. -/
theorem Reads.of_succ {j : Json} (h : ∀ fuel rest, 2 * j.write.length ≤ fuel + 1 →
    Delimited rest → readValue? (fuel + 1) (j.write ++ rest) = some (j, rest)) : Reads j := by
  intro fuel rest hfuel hrest
  cases fuel with
  | zero =>
    obtain ⟨c, cs, hwrite, -, -⟩ := exists_write_eq_cons j
    simp [hwrite] at hfuel
  | succ fuel => exact h fuel rest hfuel hrest

theorem reads (j : Json) : Reads j := by
  induction j using induct with
  | null => exact .of_succ fun _ _ _ _ => rfl
  | bool b =>
    cases b with
    | true => exact .of_succ fun _ _ _ _ => rfl
    | false => exact .of_succ fun _ _ _ _ => rfl
  | natural n =>
    refine .of_succ fun fuel rest _ hrest => ?_
    rw [write, readValue?_natural n fuel hrest]
  | otherNumber =>
    refine .of_succ fun fuel rest _ hrest => ?_
    have hzero := readUnsigned?_toDigits 0 hrest
    rw [Nat.toDigits_zero, List.singleton_append] at hzero
    simp [write, readValue?, skipSpace, isSpace, hzero]
  | string text? =>
    refine .of_succ fun fuel rest _ _ => ?_
    obtain ⟨body, hbody, htext⟩ := readText?_writeString text?
    simp [write, hbody, readValue?, skipSpace, isSpace, htext]
  | array items hitems =>
    refine .of_succ fun fuel rest hfuel _ => ?_
    cases items with
    | nil => rfl
    | cons item items =>
      obtain ⟨hitem, hitems⟩ := List.forall_mem_cons.1 hitems
      simp only [write, List.length_cons, List.length_append] at hfuel
      obtain ⟨fuel, rfl⟩ := Nat.exists_eq_add_of_le' (show 1 ≤ fuel by omega)
      rw [write, List.cons_append, List.append_assoc]
      exact readValue?_array (readItems?_write hitem hitems rest (by omega))
  | object members hmembers =>
    refine .of_succ fun fuel rest hfuel _ => ?_
    cases members with
    | nil => rfl
    | cons member members =>
      obtain ⟨key, value⟩ := member
      obtain ⟨hvalue, hmembers⟩ : Reads value ∧ ∀ member ∈ members, Reads member.2 :=
        List.forall_mem_cons.1 hmembers
      simp only [write, List.length_cons, List.length_append] at hfuel
      obtain ⟨fuel, rfl⟩ := Nat.exists_eq_add_of_le' (show 1 ≤ fuel by omega)
      rw [write, List.cons_append, List.append_assoc, List.cons_append, List.append_assoc]
      exact readValue?_object (readMembers?_write hvalue hmembers rest (by omega))

/-- What is written is read back. -/
theorem parse?_render (j : Json) : parse? j.render = some j := by
  have hread := reads j (2 * j.write.length + 2) [] (by omega) delimited_nil
  rw [List.append_nil] at hread
  simp [parse?, render, hread, skipSpace]

end Predictive.Json
