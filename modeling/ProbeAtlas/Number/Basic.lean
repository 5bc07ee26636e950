/-!
# ProbeAtlas — binary64 numbers

Numbers of a data text are binary64. They are held exactly, as a sign, a whole mantissa and a power
of two, so that reading, comparing and printing them are questions about natural numbers.

A ratio is read as the nearest number, ties to the even mantissa (`Number.ofRatio`). A decimal is the
ratio it denotes (`Number.ofDecimal`); decimals far outside the range are settled by their size alone.
-/

namespace ProbeAtlas

/-- A binary64 number. `finite n m e` is `m * 2 ^ e`, negated if `n`. -/
inductive Number where
  | finite (negative : Bool) (mantissa : Nat) (exponent : Int)
  | infinite (negative : Bool)
  | nan
deriving DecidableEq, Repr

namespace Number

/-- The quotient rounded to the nearest whole number, a half going to the even one. -/
def roundDiv (num den : Nat) : Nat :=
  let quotient := num / den
  let twice := 2 * (num % den)
  if twice < den ∨ (twice = den ∧ quotient % 2 = 0) then quotient else quotient + 1

/-- The mantissas of normal numbers have this many bits. -/
def precision : Nat := 53

/-- The exponent of the smallest numbers. -/
def leastExponent : Int := -1074

/-- The exponent of the largest finite numbers. -/
def greatestExponent : Int := 971

/-- `num / den` counted in units of `2 ^ e`, as a ratio of whole numbers. -/
def inUnits (num den : Nat) (e : Int) : Nat × Nat :=
  if 0 ≤ e then (num, den * Nat.pow 2 e.toNat) else (num * Nat.pow 2 (-e).toNat, den)

/-- The exponent at which `num / den` has a mantissa of full precision, or the least exponent. -/
def exponentFor (num den : Nat) : Int :=
  let low : Int := (num.log2 : Int) - (den.log2 : Int) - (precision : Int)
  let (n, d) := inUnits num den low
  max (if n / d < Nat.pow 2 precision then low else low + 1) leastExponent

/-- The number nearest to `num / den`; beyond the largest finite number it is infinite. -/
def ofRatio (negative : Bool) (num den : Nat) : Number :=
  let e := exponentFor num den
  let (n, d) := inUnits num den e
  let m := roundDiv n d
  if m = 0 then .finite negative 0 0
  else if m < Nat.pow 2 precision then
    if e ≤ greatestExponent then .finite negative m e else .infinite negative
  else if e + 1 ≤ greatestExponent then .finite negative (m / 2) (e + 1)
  else .infinite negative

/-- The number nearest to `digits * 10 ^ exponent`. -/
def ofDecimal (negative : Bool) (digits : Nat) (exponent : Int) : Number :=
  let size : Int := (Nat.toDigits 10 digits).length + exponent
  if digits = 0 ∨ size < -400 then .finite negative 0 0
  else if 400 < size then .infinite negative
  else if 0 ≤ exponent then ofRatio negative (digits * Nat.pow 10 exponent.toNat) 1
  else ofRatio negative digits (Nat.pow 10 (-exponent).toNat)

/-- The number nearest to a whole number. -/
def ofInt (i : Int) : Number :=
  ofRatio (i < 0) i.natAbs 1

def ofNat (n : Nat) : Number :=
  ofRatio false n 1

/-- Both zeros are zero. -/
def isZero : Number → Bool
  | .finite _ m _ => m == 0
  | _ => false

/-- The whole number that a number is, if it is one. -/
def toInt? : Number → Option Int
  | .finite negative m e =>
    let signed (n : Nat) : Int := if negative then -(n : Int) else n
    if 0 ≤ e then some (signed (m * Nat.pow 2 e.toNat))
    else if m % Nat.pow 2 (-e).toNat = 0 then some (signed (m / Nat.pow 2 (-e).toNat))
    else none
  | _ => none

end Number

end ProbeAtlas
