import ProbeAtlas.Number.Shortest

/-!
# ProbeAtlas — bits and nets

A bit of a signal is a net or a constant driver. Nets are numbered; numbers come from a data text, so
they are whole binary64 numbers, and the counter that hands out fresh nets steps through those.
-/

namespace ProbeAtlas

/-- A constant driver of a bit. -/
inductive Level where
  | zero
  | one
  | unknown
  | floating
deriving DecidableEq, Repr

def Level.char : Level → Char
  | .zero => '0'
  | .one => '1'
  | .unknown => 'x'
  | .floating => 'z'

def Level.text (l : Level) : String :=
  String.singleton l.char

def Level.ofText? : String → Option Level
  | "0" => some .zero
  | "1" => some .one
  | "x" => some .unknown
  | "z" => some .floating
  | _ => none

/-- A net, given by its number, or a constant driver. -/
inductive Bit where
  | net (id : Nat)
  | const (level : Level)
deriving DecidableEq, Repr

def Bit.net? : Bit → Option Nat
  | .net id => some id
  | .const _ => none

/-- The nets among some bits. -/
def netsOf (bits : List Bit) : List Nat :=
  bits.filterMap Bit.net?

/-- Numbers below this bound, `2 ^ 53`, have a successor among the binary64 numbers. -/
def exactBound : Nat := 0x20000000000000

/-- The net number after `n`: the binary64 number nearest to `n + 1`, ties to the even mantissa. -/
def nextNet (n : Nat) : Nat :=
  if n < exactBound then n + 1
  else if n < 2 * exactBound ∧ n / 2 % 2 = 1 then n + 2
  else n

/-- A net number as text. -/
def netText (n : Nat) : String :=
  if n < exactBound then toString n else (Number.ofNat n).text

theorem nextNet_of_lt {n : Nat} (h : n < exactBound) : nextNet n = n + 1 := by
  simp [nextNet, h]

theorem le_nextNet (n : Nat) : n ≤ nextNet n := by
  unfold nextNet
  split
  · omega
  · split <;> omega

end ProbeAtlas
