import Mathlib.Algebra.Ring.Nat
import Mathlib.Data.List.Basic
import Mathlib.Data.List.TakeDrop
import Mathlib.Data.List.TakeWhile
import ProbeAtlas.Param.Literal

/-!
# ProbeAtlas — literals read back

A parameter value is written as a literal and read again as a value of its kind. The two directions
were not made from one description: texts are escaped character by character, but read from left to
right by taking whatever escape begins at a backslash. Long words are padded to all their bits, while
the reader compares a declared width with the number of bits it finds.

Main results:

* `Quoted.decode_encode` — escapes are read where they were written and nowhere else, also in texts that
  look like escapes themselves.
* `ParamValue.decode?_encode` — a literal reads back as the value it was written from, and a word that
  does not fit has no literal that can be read.
-/

namespace ProbeAtlas

/-! ## Quoted text -/

namespace Quoted

/-- A character other than a backslash stands for itself. -/
theorem decode_cons_of_ne {c : Char} (h : c ≠ '\\') (rest : List Char) :
    decode (c :: rest) = c :: decode rest := by
  rw [decode.eq_def]
  split <;> simp_all

/-- A control character has three octal digits, the first of which is zero. -/
theorem octal_control : ∀ n < 32, ∃ a b, Numeral.octal 3 n = ['0', a, b] ∧
    octal? '0' a b = some (Char.ofNat n) := by
  intro n hn
  have hDigits : ∀ n < 32, (Numeral.octal 3 n).length = 3 ∧ (Numeral.octal 3 n).head? = some '0' ∧
      octal? '0' ((Numeral.octal 3 n).getD 1 '0') ((Numeral.octal 3 n).getD 2 '0') =
        some (Char.ofNat n) := by decide
  obtain ⟨hLength, hHead, hOctal⟩ := hDigits n hn
  obtain ⟨z, a, b, hEq⟩ := List.length_eq_three.mp hLength
  rw [hEq] at hHead hOctal
  exact ⟨a, b, by rw [hEq, ← Option.some.inj hHead], hOctal⟩

/-- **What was written for a character is read as that character.** Whatever follows is left alone. -/
theorem decode_escape (c : Char) (rest : List Char) :
    decode (escape c ++ rest) = c :: decode rest := by
  unfold escape
  split
  · next h => rw [h]; rfl
  split
  · next h => rw [h]; rfl
  split
  · next hControl =>
    obtain ⟨a, b, hDigits, hOctal⟩ := octal_control c.toNat hControl
    rw [hDigits]
    show decode ('\\' :: '0' :: a :: b :: rest) = _
    rw [decode, hOctal, Char.ofNat_toNat] <;> decide
  split
  · next h => rw [h]; rfl
  split
  · next h => rw [h]; rfl
  · next hPlain => exact decode_cons_of_ne hPlain rest

/-- **Reading the escapes undoes writing them.** -/
theorem decode_encode (cs : List Char) : decode (encode cs) = cs := by
  induction cs with
  | nil => rfl
  | cons c cs ih =>
    show decode (escape c ++ encode cs) = _
    rw [decode_escape, ih]

/-- The quotes around a text are its first and last character, whatever the text ends with. -/
theorem unwrap?_wrap (s : String) : unwrap? (wrap s) = some s := by
  have hRest : (encode s.toList ++ ['"']).reverse = '"' :: (encode s.toList).reverse :=
    List.reverse_concat ..
  unfold unwrap? wrap
  simp only [String.toList_ofList, List.cons_append, hRest, List.reverse_reverse, decode_encode,
    String.ofList_toList]

end Quoted

/-! ## Words -/

namespace Numeral

theorem isBinaryDigit_of_mem_toDigits {n : Nat} {c : Char} (h : c ∈ Nat.toDigits 2 n) :
    isBinaryDigit c = true := by
  have hDigit : ∀ k < 2, isBinaryDigit k.digitChar = true := by decide
  induction n using Nat.strongRecOn with
  | ind n ih =>
    rw [Nat.toDigits_eq_if (by decide)] at h
    split at h
    · next hSmall =>
      rw [List.mem_singleton.mp h]
      exact hDigit n hSmall
    · rcases List.mem_append.mp h with h | h
      · exact ih (n / 2) (by omega) h
      · rw [List.mem_singleton.mp h]
        exact hDigit (n % 2) (by omega)

theorem all_isBinaryDigit_binary (width n : Nat) : (binary width n).all isBinaryDigit = true := by
  rw [List.all_eq_true]
  intro c hc
  rcases List.mem_append.mp hc with hc | hc
  · rw [List.eq_of_mem_replicate hc]
    rfl
  · exact isBinaryDigit_of_mem_toDigits hc

/-- Padding fills up to the width exactly if the number fits. -/
theorem length_binary_eq_iff {width n : Nat} (h : 0 < width) :
    (binary width n).length = width ↔ n < 2 ^ width := by
  rw [binary, List.length_leftpad, ← Nat.length_toDigits_le_iff (by decide) h]
  omega

end Numeral

namespace Literal

/-- A run of characters ends where the next one is of another kind. -/
theorem span_append_of_forall {p : Char → Bool} {front rest : List Char} (h : ∀ c ∈ front, p c = true)
    (hRest : ∀ c ∈ rest.head?, p c = false) : (front ++ rest).span p = (front, rest) := by
  rw [List.span_eq_takeWhile_dropWhile, List.takeWhile_append_of_pos h, List.dropWhile_append_of_pos h]
  cases rest with
  | nil => simp
  | cons c rest =>
    have hc : p c = false := hRest c rfl
    rw [List.takeWhile_cons_of_neg (by simp [hc]), List.dropWhile_cons_of_neg (by simp [hc]),
      List.append_nil]

/-- Decimal digits alone are a decimal. -/
theorem number?_digits {maxBits : Nat} {digits : List Char} (hSome : digits ≠ [])
    (h : ∀ c ∈ digits, c.isDigit = true) :
    number? maxBits digits = some (Numeral.valueOf 10 digits) := by
  have hEnd : ∀ c ∈ ([] : List Char).head?, c.isDigit = false := by simp
  have hSpan := span_append_of_forall h hEnd
  rw [List.append_nil] at hSpan
  unfold number?
  rw [hSpan]
  cases digits with
  | nil => exact absurd rfl hSome
  | cons c digits => rfl

/-- Digits, a mark and bits are a binary numeral if the digits give the number of the bits, which must not
be zero nor exceed the bound. -/
theorem number?_marked {maxBits : Nat} {digits : List Char} (hSome : digits ≠ [])
    (h : ∀ c ∈ digits, c.isDigit = true) (bits : List Char) :
    number? maxBits (digits ++ tick :: bits) =
      if bits.all Numeral.isBinaryDigit ∧ Numeral.valueOf 10 digits ≠ 0 ∧
          Numeral.valueOf 10 digits = bits.length ∧ Numeral.valueOf 10 digits ≤ maxBits then
        some (Numeral.valueOf 2 bits)
      else none := by
  unfold number?
  rw [span_append_of_forall h (by rintro c ⟨⟩; decide)]
  cases digits with
  | nil => exact absurd rfl hSome
  | cons c digits => exact if_congr (and_iff_right rfl) rfl rfl

theorem word?_toString (maxBits n : Nat) :
    word? maxBits (toString n) = if n < 2 ^ maxBits then some n else none := by
  unfold word?
  rw [Nat.toString_eq_ofList_toDigits, String.toList_ofList,
    number?_digits Nat.toDigits_ne_nil
      (fun c hc => Nat.isDigit_of_mem_toDigits (by decide) (by decide) hc),
    Numeral.valueOf, Nat.ofDigitChars_ten_toDigits, Option.filter_some]
  exact if_congr decide_eq_true_iff rfl rfl

/-- Only a word that fits has as many bits as its literal says. -/
theorem word?_sized (n : Nat) :
    word? 64 (String.ofList ('6' :: '4' :: tick :: Numeral.binary 64 n)) =
      if n < 2 ^ 64 then some n else none := by
  have hNumber : number? 64 ('6' :: '4' :: tick :: Numeral.binary 64 n) =
      if n < 2 ^ 64 then some n else none := by
    have hWidth : Numeral.valueOf 10 ['6', '4'] = 64 := by decide
    have hMarked : number? 64 (['6', '4'] ++ tick :: Numeral.binary 64 n) = _ :=
      number?_marked (by decide) (List.all_eq_true.mp rfl) (Numeral.binary 64 n)
    rw [hWidth, Numeral.valueOf_binary] at hMarked
    refine hMarked.trans (if_congr ?_ rfl rfl)
    rw [← Numeral.length_binary_eq_iff (by decide)]
    constructor
    · rintro ⟨-, -, hLength, -⟩
      exact hLength.symm
    · intro hLength
      exact ⟨Numeral.all_isBinaryDigit_binary 64 n, by decide, hLength.symm, Nat.le_refl _⟩
  unfold word?
  rw [String.toList_ofList, hNumber]
  split
  · next hFits =>
    rw [Option.filter_some, if_pos]
    exact decide_eq_true hFits
  · rfl

end Literal

/-- **A literal reads back as the value it was written from.** Every text does, and a word does exactly
if it has no more bits than its kind; the literal of any other word cannot be read. -/
theorem ParamValue.decode?_encode :
    (∀ s : String, decode? .text (encode (.text s)) = some (.text s)) ∧
      (∀ n : Nat, decode? .word32 (encode (.word32 n)) =
        if n < 2 ^ 32 then some (.word32 n) else none) ∧
      ∀ n : Nat, decode? .word64 (encode (.word64 n)) =
        if n < 2 ^ 64 then some (.word64 n) else none := by
  refine ⟨fun s => ?_, fun n => ?_, fun n => ?_⟩
  · show (Quoted.unwrap? (Quoted.wrap s)).map ParamValue.text = _
    rw [Quoted.unwrap?_wrap, Option.map_some]
  · show (Literal.word? 32 (toString n)).map ParamValue.word32 = _
    rw [Literal.word?_toString]
    split <;> rfl
  · show (Literal.word? 64 (String.ofList ('6' :: '4' :: Literal.tick :: Numeral.binary 64 n))).map
      ParamValue.word64 = _
    rw [Literal.word?_sized]
    split <;> rfl

end ProbeAtlas
