import ProbeAtlas.Number.Shortest
import ProbeAtlas.Text.Quoted

/-!
# ProbeAtlas — parameter literals

A parameter is a 32-bit word, a 64-bit word or a text. Netlists carry it as a literal: a decimal, a
sized binary numeral such as `8'00101101`, or a quoted text. `ParamValue.decode?` reads a literal as
a given kind, `ParamValue.encode` writes one, and `Literal.ofText` renders a raw netlist text as the
literal that it stands for.
-/

namespace ProbeAtlas

inductive ParamKind where
  | word32
  | word64
  | text
deriving DecidableEq, Repr

/-- The format's name in messages about literals. -/
def ParamKind.format : ParamKind → String
  | .word32 => "uint32_t"
  | .word64 => "uint64_t"
  | .text => "string"

/-- The type's name in messages about table look-ups. -/
def ParamKind.typeName : ParamKind → String
  | .word32 => "uint32"
  | .word64 => "uint64"
  | .text => "string"

/-- A decoded parameter. -/
inductive ParamValue where
  | word32 (n : Nat)
  | word64 (n : Nat)
  | text (s : String)
deriving DecidableEq, Repr

namespace Literal

/-- The mark between the width and the bits of a sized numeral. -/
def tick : Char := '\x27'

/-- The value of a decimal or of a sized binary numeral of at most `maxBits` bits. -/
def number? (maxBits : Nat) (cs : List Char) : Option Nat :=
  match cs.span Char.isDigit with
  | ([], _) => none
  | (digits, []) => some (Numeral.valueOf 10 digits)
  | (digits, c :: bits) =>
    let width := Numeral.valueOf 10 digits
    if c = tick ∧ bits.all Numeral.isBinaryDigit ∧ width ≠ 0 ∧ width = bits.length ∧ width ≤ maxBits then
      some (Numeral.valueOf 2 bits)
    else none

/-- The value of a word literal, which has to fit the word. -/
def word? (maxBits : Nat) (literal : String) : Option Nat :=
  (number? maxBits literal.toList).filter (· < Nat.pow 2 maxBits)

end Literal

namespace ParamValue

/-- Reads a literal as a value of the given kind. -/
def decode? (kind : ParamKind) (literal : String) : Option ParamValue :=
  match kind with
  | .word32 => (Literal.word? 32 literal).map .word32
  | .word64 => (Literal.word? 64 literal).map .word64
  | .text => (Quoted.unwrap? literal).map .text

/-- The literal of a value: short words in decimal, long words with all their bits. -/
def encode : ParamValue → String
  | .word32 n => toString n
  | .word64 n => String.ofList ('6' :: '4' :: Literal.tick :: Numeral.binary 64 n)
  | .text s => Quoted.wrap s

/-- The value as it is shown in the log. -/
def describe : ParamValue → String
  | .word32 n => s!"{n} ({Numeral.hex32 n})"
  | .word64 n => s!"{n} ({Numeral.hex64 n})"
  | .text s => s

end ParamValue

namespace Literal

/-- The four letters of a bit pattern. -/
def isPatternChar (c : Char) : Bool :=
  c == '0' || c == '1' || c == 'x' || c == 'z'

/-- A bit pattern: in decimal if it is a defined 32-bit value with a clear sign bit, else sized. -/
def ofPattern (cs : List Char) : String :=
  if cs.length = 32 ∧ cs.head? = some '0' ∧ cs.all Numeral.isBinaryDigit then
    toString (Numeral.valueOf 2 cs)
  else toString cs.length ++ String.ofList (tick :: cs)

/-- A text that would read as a bit pattern is stored with one blank behind it; this takes it off. -/
def unguard (cs : List Char) : List Char :=
  match cs.reverse with
  | ' ' :: rest => if rest.all isPatternChar then rest.reverse else cs
  | _ => cs

/-- The literal that a raw netlist text stands for. -/
def ofText (text : String) : String :=
  let cs := text.toList
  if cs ≠ [] ∧ cs.all isPatternChar then ofPattern cs
  else Quoted.wrap (String.ofList (unguard cs))

/-- The literal that a raw netlist number stands for. -/
def ofNumber (n : Number) : String :=
  n.text

end Literal

end ProbeAtlas
