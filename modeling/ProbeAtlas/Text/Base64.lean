/-!
# ProbeAtlas — bytes in base64

Four symbols of six bits each make three bytes. Line breaks between symbols do not count, padding marks
fill a group of four up. A text without any symbol stands for three zero bytes.
-/

namespace ProbeAtlas.Base64

/-- The six bits of a symbol. -/
def sextet? (c : Char) : Option Nat :=
  if 'A' ≤ c ∧ c ≤ 'Z' then some (c.toNat - 'A'.toNat)
  else if 'a' ≤ c ∧ c ≤ 'z' then some (c.toNat - 'a'.toNat + 26)
  else if '0' ≤ c ∧ c ≤ '9' then some (c.toNat - '0'.toNat + 52)
  else if c = '+' then some 62
  else if c = '/' then some 63
  else none

/-- The bytes of symbols. Of an incomplete group the whole bytes count. -/
def bytes : List Nat → List Nat
  | a :: b :: c :: d :: rest => [a * 4 + b / 16, b % 16 * 16 + c / 4, c % 4 * 64 + d] ++ bytes rest
  | [a, b, c] => [a * 4 + b / 16, b % 16 * 16 + c / 4]
  | [a, b] => [a * 4 + b / 16]
  | _ => []

/-- The bytes of a text of whole groups. A padding mark fills a place wherever it stands. -/
def decode? (text : String) : Option (List Nat) := do
  let marks := text.toList.filter fun c => !(c == '\n' || c == '\r')
  let sextets ← (marks.filter (· ≠ '=')).mapM sextet?
  if marks.length % 4 ≠ 0 then none
  else return if sextets.isEmpty then [0, 0, 0] else bytes sextets

end ProbeAtlas.Base64
