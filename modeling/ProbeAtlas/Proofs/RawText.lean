import Mathlib.Data.List.Induction
import Mathlib.Data.Nat.Digits.Defs
import ProbeAtlas.Proofs.LiteralCodec

/-!
# ProbeAtlas — raw texts and the literals they stand for

A netlist stores a parameter as a raw text. A text over the letters of a bit pattern is a number in
binary, and may have unknown or floating bits; any other text is meant as text. A text that only looks
like a pattern is stored with one blank behind it. `Literal.ofText` turns the raw text into a literal
and `ParamValue.decode?` reads the literal as a value of some kind. The two were made apart: some numbers
become decimals and others are sized, and the reader has no idea of guards.

Main result: `Literal.decode?_ofText` — which kinds can read the literal of a raw text, and as what.
-/

namespace ProbeAtlas

-- ---------------------------------------------------------------------------
-- Raw texts
-- ---------------------------------------------------------------------------

/-- A text of zeros and ones. -/
def IsBinary (v : String) : Prop :=
  ∀ c ∈ v.toList, c = '0' ∨ c = '1'

/-- A text of zeros, ones, unknown and floating bits. -/
def IsPattern (v : String) : Prop :=
  ∀ c ∈ v.toList, c = '0' ∨ c = '1' ∨ c = 'x' ∨ c = 'z'

instance : DecidablePred IsBinary := fun v =>
  List.decidableBAll (fun c => c = '0' ∨ c = '1') v.toList

instance : DecidablePred IsPattern := fun v =>
  List.decidableBAll (fun c => c = '0' ∨ c = '1' ∨ c = 'x' ∨ c = 'z') v.toList

/-- The number whose digits in base two are the characters of the text, the last one first. -/
def binaryValue (v : String) : Nat :=
  Nat.ofDigits 2 (v.toList.reverse.map fun c => if c = '1' then 1 else 0)

/-- The raw text is a pattern with one blank behind it. -/
def Guards (v w : String) : Prop :=
  v = w ++ " " ∧ IsPattern w

namespace Numeral

theorem isBinaryDigit_iff {c : Char} : isBinaryDigit c = true ↔ c = '0' ∨ c = '1' := by
  simp [isBinaryDigit]

/-- Reading from the left gives the number that the digits have as a positional numeral. -/
theorem valueOf_eq_ofDigits {cs : List Char} (h : ∀ c ∈ cs, c = '0' ∨ c = '1') :
    valueOf 2 cs = Nat.ofDigits 2 (cs.reverse.map fun c => if c = '1' then 1 else 0) := by
  -- the reader's loop appends one digit at a time, so the induction takes the last digit off
  induction cs using List.reverseRecOn with
  | nil => rfl
  | append_singleton cs c ih =>
    have hInit : ∀ c ∈ cs, c = '0' ∨ c = '1' := fun c hc => h c (List.mem_append_left _ hc)
    have hDigit : c.toNat - '0'.toNat = if c = '1' then 1 else 0 := by
      rcases h c (by simp) with rfl | rfl <;> decide
    have hStep : valueOf 2 (cs ++ [c]) = 2 * valueOf 2 cs + (c.toNat - '0'.toNat) := by
      rw [valueOf, Nat.ofDigitChars_append]
      rfl
    rw [hStep, hDigit, ih hInit, List.reverse_concat, List.map_cons, Nat.ofDigits_cons]
    exact Nat.add_comm ..

/-- A binary numeral is less than the power of two of its length. -/
theorem valueOf_lt {cs : List Char} (h : ∀ c ∈ cs, c = '0' ∨ c = '1') :
    valueOf 2 cs < 2 ^ cs.length := by
  rw [valueOf_eq_ofDigits h]
  have hBound := Nat.ofDigits_lt_base_pow_length (b := 2)
    (l := cs.reverse.map fun c => if c = '1' then 1 else 0) (by decide) (by
      intro d hd
      obtain ⟨c, -, rfl⟩ := List.mem_map.mp hd
      split <;> decide)
  rw [List.length_map, List.length_reverse] at hBound
  exact hBound

end Numeral

namespace Literal

-- ---------------------------------------------------------------------------
-- Literals of patterns
-- ---------------------------------------------------------------------------

/-- The sized form of a pattern is a number if all bits are known and there are not too many. -/
theorem word?_sizedPattern (maxBits : Nat) {cs : List Char} (hSome : cs ≠ []) :
    word? maxBits (toString cs.length ++ String.ofList (tick :: cs)) =
      if cs.all Numeral.isBinaryDigit ∧ cs.length ≤ maxBits then some (Numeral.valueOf 2 cs)
      else none := by
  have hWidth : Numeral.valueOf 10 (Nat.toDigits 10 cs.length) = cs.length :=
    Nat.ofDigitChars_ten_toDigits
  have hLength : cs.length ≠ 0 := by simpa using hSome
  unfold word?
  rw [Nat.toString_eq_ofList_toDigits, ← String.ofList_append, String.toList_ofList,
    number?_marked Nat.toDigits_ne_nil
      (fun c hc => Nat.isDigit_of_mem_toDigits (by decide) (by decide) hc), hWidth]
  by_cases hFits : cs.all Numeral.isBinaryDigit = true ∧ cs.length ≤ maxBits
  · have hDigits : ∀ c ∈ cs, c = '0' ∨ c = '1' := fun c hc =>
      Numeral.isBinaryDigit_iff.mp (List.all_eq_true.mp hFits.1 c hc)
    have hLt : Numeral.valueOf 2 cs < Nat.pow 2 maxBits :=
      lt_of_lt_of_le (Numeral.valueOf_lt hDigits) (Nat.pow_le_pow_right (by decide) hFits.2)
    rw [if_pos hFits, if_pos ⟨hFits.1, hLength, rfl, hFits.2⟩, Option.filter_some,
      if_pos (decide_eq_true hLt)]
  · rw [if_neg hFits, if_neg fun hAll => hFits ⟨hAll.1, hAll.2.2.2⟩]
    rfl

/-- **Both forms of a pattern are read alike.** The decimal form is used only for numbers of 32 bits, so
it fits wherever the sized form does. -/
theorem word?_ofPattern {maxBits : Nat} (hWord : 32 ≤ maxBits) {cs : List Char} (hSome : cs ≠ []) :
    word? maxBits (ofPattern cs) =
      if cs.all Numeral.isBinaryDigit ∧ cs.length ≤ maxBits then some (Numeral.valueOf 2 cs)
      else none := by
  unfold ofPattern
  split
  · next hDecimal =>
    obtain ⟨hLength, -, hBinary⟩ := hDecimal
    have hDigits : ∀ c ∈ cs, c = '0' ∨ c = '1' := fun c hc =>
      Numeral.isBinaryDigit_iff.mp (List.all_eq_true.mp hBinary c hc)
    have hLt : Numeral.valueOf 2 cs < 2 ^ maxBits :=
      lt_of_lt_of_le (Numeral.valueOf_lt hDigits) (Nat.pow_le_pow_right (by decide) (by omega))
    rw [word?_toString, if_pos hLt, if_pos ⟨hBinary, by omega⟩]
  · exact word?_sizedPattern maxBits hSome

/-- The literal of a pattern begins with a digit. -/
theorem unwrap?_ofPattern (cs : List Char) : Quoted.unwrap? (ofPattern cs) = none := by
  have hDigit : ∀ (n : Nat) (rest : List Char),
      Quoted.unwrap? (String.ofList (Nat.toDigits 10 n ++ rest)) = none := by
    intro n rest
    obtain ⟨c, digits, hDigits⟩ := List.exists_cons_of_ne_nil (Nat.toDigits_ne_nil (n := n) (b := 10))
    have hFirst : c.isDigit = true :=
      Nat.isDigit_of_mem_toDigits (b := 10) (n := n) (by decide) (by decide) (by simp [hDigits])
    have hQuote : c ≠ '"' := by
      rintro rfl
      exact absurd hFirst (by decide)
    unfold Quoted.unwrap?
    rw [String.toList_ofList, hDigits, List.cons_append]
    split
    · next hEq => exact absurd (List.cons.inj hEq).1 hQuote
    · rfl
  unfold ofPattern
  split
  · rw [Nat.toString_eq_ofList_toDigits, ← List.append_nil (Nat.toDigits _ _)]
    exact hDigit _ []
  · rw [Nat.toString_eq_ofList_toDigits, ← String.ofList_append]
    exact hDigit _ _

-- ---------------------------------------------------------------------------
-- Literals of texts
-- ---------------------------------------------------------------------------

/-- A quoted text is no number. -/
theorem word?_wrap (maxBits : Nat) (s : String) : word? maxBits (Quoted.wrap s) = none := by
  have hSpan : ('"' :: (Quoted.encode s.toList ++ ['"'])).span Char.isDigit =
      ([], '"' :: (Quoted.encode s.toList ++ ['"'])) := by
    rw [List.span_eq_takeWhile_dropWhile, List.takeWhile_cons_of_neg (by decide),
      List.dropWhile_cons_of_neg (by decide)]
  unfold word? Quoted.wrap number?
  rw [String.toList_ofList, List.cons_append, hSpan]
  rfl

theorem isPatternChar_iff {c : Char} :
    isPatternChar c = true ↔ c = '0' ∨ c = '1' ∨ c = 'x' ∨ c = 'z' := by
  simp [isPatternChar, or_assoc]

theorem all_isPatternChar_iff {v : String} : v.toList.all isPatternChar = true ↔ IsPattern v := by
  rw [List.all_eq_true]
  exact forall₂_congr fun c _ => isPatternChar_iff

/-- A guard is taken off. -/
theorem unguard_of_guards {v w : String} (h : Guards v w) : unguard v.toList = w.toList := by
  obtain ⟨rfl, hPattern⟩ := h
  have hLast : (w ++ " ").toList.reverse = ' ' :: w.toList.reverse := by
    rw [String.toList_append]
    exact List.reverse_concat ..
  unfold unguard
  rw [hLast]
  show (if w.toList.reverse.all isPatternChar = true then w.toList.reverse.reverse
    else (w ++ " ").toList) = _
  rw [List.all_reverse, if_pos (all_isPatternChar_iff.mpr hPattern), List.reverse_reverse]

/-- What is not guarded stays as it is. -/
theorem unguard_of_not_guards {v : String} (h : ¬∃ w, Guards v w) : unguard v.toList = v.toList := by
  unfold unguard
  split
  · next rest hLast =>
    refine if_neg fun hAll => h ⟨String.ofList rest.reverse, ?_, ?_⟩
    · rw [← String.toList_inj, String.toList_append, String.toList_ofList,
        ← List.reverse_reverse v.toList, hLast, List.reverse_cons]
      rfl
    · rw [← all_isPatternChar_iff, String.toList_ofList, List.all_reverse]
      exact hAll
  · rfl

-- ---------------------------------------------------------------------------
-- Raw texts
-- ---------------------------------------------------------------------------

theorem ofText_pattern {v : String} (hSome : v ≠ "") (h : IsPattern v) :
    ofText v = ofPattern v.toList :=
  if_pos ⟨by simpa using hSome, all_isPatternChar_iff.mpr h⟩

theorem ofText_other {v : String} (h : v = "" ∨ ¬IsPattern v) :
    ofText v = Quoted.wrap (String.ofList (unguard v.toList)) := by
  refine if_neg fun hPattern => ?_
  rcases h with rfl | hOther
  · exact hPattern.1 rfl
  · exact hOther (all_isPatternChar_iff.mp hPattern.2)

section Readings

open ParamValue

/-- Both kinds of words read a binary number, and only the bound on its bits differs. -/
theorem decode?_ofText_binary {v : String} (hSome : v ≠ "") (hBinary : IsBinary v) :
    decode? .word32 (ofText v) =
        (if v.length ≤ 32 then some (.word32 (binaryValue v)) else none) ∧
      decode? .word64 (ofText v) =
        (if v.length ≤ 64 then some (.word64 (binaryValue v)) else none) ∧
      decode? .text (ofText v) = none := by
  have hPattern : IsPattern v := fun c hc => (hBinary c hc).elim Or.inl fun h => Or.inr (Or.inl h)
  have hAll : v.toList.all Numeral.isBinaryDigit = true :=
    List.all_eq_true.mpr fun c hc => Numeral.isBinaryDigit_iff.mpr (hBinary c hc)
  have hWord : ∀ maxBits, 32 ≤ maxBits →
      word? maxBits (ofText v) = if v.length ≤ maxBits then some (binaryValue v) else none := by
    intro maxBits hBits
    rw [ofText_pattern hSome hPattern, word?_ofPattern hBits (by simpa using hSome),
      Numeral.valueOf_eq_ofDigits hBinary, String.length_toList]
    exact if_congr (and_iff_right hAll) rfl rfl
  refine ⟨?_, ?_, ?_⟩
  · rw [decode?, hWord 32 (by decide)]
    split <;> rfl
  · rw [decode?, hWord 64 (by decide)]
    split <;> rfl
  · rw [decode?, ofText_pattern hSome hPattern, unwrap?_ofPattern]
    rfl

/-- A pattern with a bit that is not known has no reading. -/
theorem decode?_ofText_unknown {v : String} (hPattern : IsPattern v)
    (hUnknown : 'x' ∈ v.toList ∨ 'z' ∈ v.toList) (kind : ParamKind) :
    decode? kind (ofText v) = none := by
  have hSome : v ≠ "" := by
    rintro rfl
    simp at hUnknown
  have hNot : ¬v.toList.all Numeral.isBinaryDigit = true := by
    intro hAll
    rw [List.all_eq_true] at hAll
    rcases hUnknown with hx | hz
    · exact absurd (hAll _ hx) (by decide)
    · exact absurd (hAll _ hz) (by decide)
  have hWord : ∀ maxBits, 32 ≤ maxBits → word? maxBits (ofText v) = none := by
    intro maxBits hBits
    rw [ofText_pattern hSome hPattern, word?_ofPattern hBits (by simpa using hSome)]
    exact if_neg fun hAll => hNot hAll.1
  cases kind with
  | word32 => rw [decode?, hWord 32 (by decide)]; rfl
  | word64 => rw [decode?, hWord 64 (by decide)]; rfl
  | text => rw [decode?, ofText_pattern hSome hPattern, unwrap?_ofPattern]; rfl

/-- Any other text is no word, and its reading as text is the text without its guard. -/
theorem decode?_ofText_other {v : String} (hOther : v = "" ∨ ¬IsPattern v) :
    decode? .word32 (ofText v) = none ∧ decode? .word64 (ofText v) = none ∧
      decode? .text (ofText v) = some (.text (String.ofList (unguard v.toList))) := by
  refine ⟨?_, ?_, ?_⟩
  · rw [decode?, ofText_other hOther, word?_wrap]
    rfl
  · rw [decode?, ofText_other hOther, word?_wrap]
    rfl
  · rw [decode?, ofText_other hOther, Quoted.unwrap?_wrap]
    rfl

/-- **What the literal of a raw text can be read as.** A binary number can be read as every kind of word
that it has not too many bits for, and a pattern with an unknown or floating bit not at all. Any other
text is read as text and comes back as it was, or without its guard if it has one. -/
theorem decode?_ofText (v : String) :
    (v ≠ "" → IsBinary v →
      decode? .word32 (ofText v) =
        (if v.length ≤ 32 then some (.word32 (binaryValue v)) else none) ∧
      decode? .word64 (ofText v) =
        (if v.length ≤ 64 then some (.word64 (binaryValue v)) else none) ∧
      decode? .text (ofText v) = none) ∧
    (IsPattern v → 'x' ∈ v.toList ∨ 'z' ∈ v.toList → ∀ kind, decode? kind (ofText v) = none) ∧
    (v = "" ∨ ¬IsPattern v →
      decode? .word32 (ofText v) = none ∧ decode? .word64 (ofText v) = none ∧
      (∀ w, Guards v w → decode? .text (ofText v) = some (.text w)) ∧
      ((¬∃ w, Guards v w) → decode? .text (ofText v) = some (.text v))) := by
  refine ⟨decode?_ofText_binary, decode?_ofText_unknown, fun hOther => ?_⟩
  obtain ⟨hShort, hLong, hText⟩ := decode?_ofText_other hOther
  refine ⟨hShort, hLong, fun w hGuards => ?_, fun hPlain => ?_⟩
  · rw [hText, unguard_of_guards hGuards, String.ofList_toList]
  · rw [hText, unguard_of_not_guards hPlain, String.ofList_toList]

/-- A number that is written in decimal, one that only a long word can hold, a pattern with an unknown
bit, a guarded pattern, and a text that looks like an escape. -/
theorem decode?_ofText_samples :
    decode? .word32 (ofText "00000000000000000000000000010010") = some (.word32 18) ∧
      decode? .word32 (ofText "100000000000000000000000000000000") = none ∧
      decode? .word64 (ofText "100000000000000000000000000000000") = some (.word64 4294967296) ∧
      (∀ kind, decode? kind (ofText "1x") = none) ∧
      decode? .text (ofText "10 ") = some (.text "10") ∧
      decode? .text (ofText "\\n") = some (.text "\\n") := by
  have hShort := (decode?_ofText "00000000000000000000000000010010").1 (by decide) (by decide +kernel)
  have hLong := (decode?_ofText "100000000000000000000000000000000").1 (by decide) (by decide +kernel)
  have hValue : binaryValue "00000000000000000000000000010010" = 18 := by decide +kernel
  have hValue' : binaryValue "100000000000000000000000000000000" = 4294967296 := by decide +kernel
  have hText := (decode?_ofText "10 ").2.2 (Or.inr (by decide +kernel))
  have hEscape := (decode?_ofText "\\n").2.2 (Or.inr (by decide +kernel))
  refine ⟨hValue ▸ hShort.1, hLong.1, hValue' ▸ hLong.2.1, ?_, ?_, ?_⟩
  · exact (decode?_ofText "1x").2.1 (by decide +kernel) (Or.inl (by decide +kernel))
  · exact hText.2.2.1 "10" ⟨by decide +kernel, by decide +kernel⟩
  · refine hEscape.2.2.2 ?_
    rintro ⟨w, hw, -⟩
    have hLast : "\\n".toList.getLast? = (w ++ " ").toList.getLast? := by rw [← hw]
    rw [String.toList_append] at hLast
    simp at hLast

end Readings

end Literal

end ProbeAtlas
