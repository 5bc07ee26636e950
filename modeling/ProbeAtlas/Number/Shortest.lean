import ProbeAtlas.Number.Basic

/-!
# ProbeAtlas — the shortest decimal text of a number

A number is written with the fewest decimal digits that read back as the same number and, of the
decimals with that many digits, the nearest one. The search is over exact whole numbers: a decimal
reads back iff it lies between the two half-way points around the number, which belong to the
interval iff the mantissa is even.

Numbers from a millionth up to (not including) `10 ^ 21` are written positionally, all others with an
exponent.
-/

namespace ProbeAtlas.Number

/-- The positive decimal `digits * 10 ^ exponent`. -/
structure Decimal where
  digits : Nat
  exponent : Int
deriving DecidableEq, Repr

/-- A positive number with its two half-way points, as whole multiples of `1 / den`. -/
structure Interval where
  low : Nat
  value : Nat
  high : Nat
  den : Nat
  /-- Whether the half-way points themselves read back as the number. -/
  closed : Bool

/-- The interval of `mantissa * 2 ^ exponent`. Below a power of two the numbers lie twice as dense. -/
def Interval.around (mantissa : Nat) (exponent : Int) : Interval :=
  let below := if mantissa = Nat.pow 2 (precision - 1) ∧ leastExponent < exponent then 1 else 2
  let scale := Nat.pow 2 (exponent - 2).toNat
  { low := (4 * mantissa - below) * scale
    value := 4 * mantissa * scale
    high := (4 * mantissa + 2) * scale
    den := Nat.pow 2 (2 - exponent).toNat
    closed := mantissa % 2 == 0 }

/-- Multiplies everything by `10 ^ -grid`, so that whole numbers stand for multiples of `10 ^ grid`. -/
def Interval.onGrid (i : Interval) (grid : Int) : Interval :=
  let up := Nat.pow 10 (-grid).toNat
  { i with
    low := i.low * up, value := i.value * up, high := i.high * up,
    den := i.den * Nat.pow 10 grid.toNat }

/-- Whether the whole number `n` lies in the interval. -/
def Interval.holds (i : Interval) (n : Nat) : Bool :=
  if i.closed then i.low ≤ n * i.den && n * i.den ≤ i.high
  else i.low < n * i.den && n * i.den < i.high

/-- The whole number of the interval that is nearest to its value, the even one of two. -/
def Interval.nearest? (i : Interval) : Option Nat :=
  let floor := i.value / i.den
  match i.holds floor, i.holds (floor + 1) with
  | true, true => some (roundDiv i.value i.den)
  | true, false => some floor
  | false, true => some (floor + 1)
  | false, false => none

/-- How often a value below one has to be multiplied by ten to reach one, at most `fuel` times. -/
def leadingZeros : Nat → Nat → Nat → Nat
  | 0, _, _ => 0
  | fuel + 1, num, den => if den ≤ num then 0 else leadingZeros fuel (num * 10) den + 1

/-- The `k` with `10 ^ (k - 1) ≤ value < 10 ^ k`. -/
def Interval.point (i : Interval) : Int :=
  if i.den ≤ i.value then (Nat.toDigits 10 (i.value / i.den)).length
  else 1 - (leadingZeros 400 i.value i.den : Int)

/-- Tries the grids of `count`, `count + 1`, … digits; seventeen digits always suffice. -/
def searchDigits (i : Interval) (point : Int) : Nat → Nat → Decimal
  | 0, count => ⟨(i.onGrid (point - count)).value / (i.onGrid (point - count)).den, point - count⟩
  | fuel + 1, count =>
    match (i.onGrid (point - count)).nearest? with
    | some digits => ⟨digits, point - count⟩
    | none => searchDigits i point fuel (count + 1)

/-- Drops the zeros at the end, at most `fuel` of them. -/
def Decimal.strip : Nat → Decimal → Decimal
  | 0, d => d
  | fuel + 1, d =>
    if d.digits % 10 = 0 ∧ d.digits ≠ 0 then Decimal.strip fuel ⟨d.digits / 10, d.exponent + 1⟩ else d

/-- The shortest decimal of a positive number. -/
def shortest (mantissa : Nat) (exponent : Int) : Decimal :=
  let i := Interval.around mantissa exponent
  (searchDigits i i.point 17 1).strip 20

/-- The first exponent of ten that is not written positionally. -/
def positionalLimit : Int := 21

/-- The text of a positive decimal. -/
def Decimal.text (d : Decimal) : List Char :=
  let ds := Nat.toDigits 10 d.digits
  let point : Int := ds.length + d.exponent
  if 0 ≤ d.exponent ∧ point ≤ positionalLimit then ds ++ List.replicate d.exponent.toNat '0'
  else if 0 < point ∧ point ≤ positionalLimit then
    ds.take point.toNat ++ '.' :: ds.drop point.toNat
  else if -6 < point ∧ point ≤ 0 then '0' :: '.' :: List.replicate (-point).toNat '0' ++ ds
  else
    let power := point - 1
    let mark := if power < 0 then '-' else '+'
    let tail := 'e' :: mark :: Nat.toDigits 10 power.natAbs
    match ds with
    | [] => tail
    | [c] => c :: tail
    | c :: rest => c :: '.' :: rest ++ tail

/-- The text of a number. Both zeros are written `0`. -/
def text : Number → String
  | .finite negative m e =>
    if m = 0 then "0"
    else
      let body := (shortest m e).text
      String.ofList (if negative then '-' :: body else body)
  | .infinite negative => if negative then "-Infinity" else "Infinity"
  | .nan => "NaN"

end ProbeAtlas.Number
