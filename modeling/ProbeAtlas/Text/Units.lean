/-!
# ProbeAtlas — text in 16-bit units

A character of the basic plane takes one unit, any other two.
-/

namespace ProbeAtlas

/-- How many 16-bit units a character takes. -/
def unitsOfChar (c : Char) : Nat :=
  if c.toNat < 0x10000 then 1 else 2

/-- How many 16-bit units a text takes. -/
def units16 (cs : List Char) : Nat :=
  (cs.map unitsOfChar).foldr (· + ·) 0

/-- The two units of a number beyond the basic plane. -/
def unitPair (n : Nat) : List Nat :=
  [0xd800 + (n - 0x10000) / 0x400, 0xdc00 + (n - 0x10000) % 0x400]

/-- The units of a character. -/
def unitsOf (c : Char) : List Nat :=
  if c.toNat < 0x10000 then [c.toNat] else unitPair c.toNat

@[simp] theorem units16_nil : units16 [] = 0 := rfl

@[simp] theorem units16_cons (c : Char) (cs : List Char) :
    units16 (c :: cs) = unitsOfChar c + units16 cs := by
  simp [units16]

theorem unitsOfChar_pos (c : Char) : 0 < unitsOfChar c := by
  unfold unitsOfChar
  split <;> decide

@[simp] theorem length_unitsOf (c : Char) : (unitsOf c).length = unitsOfChar c := by
  unfold unitsOf unitsOfChar
  split <;> rfl

end ProbeAtlas
