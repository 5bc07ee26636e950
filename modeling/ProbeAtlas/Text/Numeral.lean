/-!
# ProbeAtlas — numerals in text

How words and counts are written in messages and literals: hexadecimal with a mark and a least
width, binary with a least width, and the value of a run of digits.

Digits are lists of characters, most significant first. Reading and writing meet in
`valueOf_binary`: reading a padded binary numeral gives the number that was written.
-/

namespace ProbeAtlas.Numeral

/-- Hexadecimal with upper-case digits, marked by `0x` and padded with zeros to `width` digits. -/
def hex (width n : Nat) : String :=
  String.ofList ('0' :: 'x' :: ((Nat.toDigits 16 n).map Char.toUpper).leftpad width '0')

/-- A 32-bit word. Numbers outside the word's range are taken modulo `2 ^ 32`. -/
def hex32 (v : Int) : String :=
  hex 8 (v % 0x100000000).toNat

/-- A 64-bit word. A larger number keeps all its digits. -/
def hex64 (n : Nat) : String :=
  hex 16 n

/-- Binary, padded with zeros to `width` digits. -/
def binary (width n : Nat) : List Char :=
  (Nat.toDigits 2 n).leftpad width '0'

/-- Octal, padded with zeros to `width` digits. -/
def octal (width n : Nat) : List Char :=
  (Nat.toDigits 8 n).leftpad width '0'

/-- The number that `digits` write in the given base, at most ten. -/
def valueOf (base : Nat) (digits : List Char) : Nat :=
  Nat.ofDigitChars base digits 0

def isBinaryDigit (c : Char) : Bool :=
  c == '0' || c == '1'

def isOctalDigit (c : Char) : Bool :=
  '0' ≤ c && c ≤ '7'

/-- The value of a hexadecimal digit of either case. -/
def hexDigit? (c : Char) : Option Nat :=
  if '0' ≤ c ∧ c ≤ '9' then some (c.toNat - '0'.toNat)
  else if 'a' ≤ c ∧ c ≤ 'f' then some (c.toNat - 'a'.toNat + 10)
  else if 'A' ≤ c ∧ c ≤ 'F' then some (c.toNat - 'A'.toNat + 10)
  else none

/-- Leading zeros do not change the value. -/
theorem valueOf_replicate_append (base k : Nat) (digits : List Char) :
    valueOf base (List.replicate k '0' ++ digits) = valueOf base digits := by
  induction k with
  | zero => simp
  | succ k ih =>
    rw [List.replicate_succ, List.cons_append]
    simpa [valueOf, Nat.ofDigitChars] using ih

/-- A padded binary numeral reads back as the number it was written from. -/
theorem valueOf_binary (width n : Nat) : valueOf 2 (binary width n) = n := by
  rw [binary, List.leftpad, valueOf_replicate_append, valueOf,
    Nat.ofDigitChars_toDigits (by decide) (by decide)]

end ProbeAtlas.Numeral
