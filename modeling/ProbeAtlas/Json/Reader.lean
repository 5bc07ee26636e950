import ProbeAtlas.Text.Numeral
import ProbeAtlas.Value.Basic

/-!
# ProbeAtlas — reading JSON text

The strict grammar: four kinds of blanks, no comments, no trailing commas, no control characters in
strings, nothing but blanks after the value. Numbers are read as the nearest binary64 number, and the
entries of an object are in the order of `Entries.ofPairs`.

Each reader takes the rest of the text and returns what it read with what is left. The readers of
nested values take a budget; one that is twice the length of the text is never used up, because each
nesting level and each item spends at least half as many characters as it spends budget.
-/

namespace ProbeAtlas.Json

/-- What a reader gives: the value read and the text behind it. -/
abbrev Read (α : Type) := Option (α × List Char)

def isBlankJson (c : Char) : Bool :=
  c == ' ' || c == '\n' || c == '\r' || c == '\t'

def skipBlanks (cs : List Char) : List Char :=
  cs.dropWhile isBlankJson

/-! ## Strings -/

/-- The code unit written by four hexadecimal digits. -/
def unit? (a b c d : Char) : Option Nat := do
  let a ← Numeral.hexDigit? a
  let b ← Numeral.hexDigit? b
  let c ← Numeral.hexDigit? c
  let d ← Numeral.hexDigit? d
  return ((a * 16 + b) * 16 + c) * 16 + d

def isHighSurrogate (n : Nat) : Bool :=
  0xd800 ≤ n && n < 0xdc00

def isLowSurrogate (n : Nat) : Bool :=
  0xdc00 ≤ n && n < 0xe000

/-- What stands for a half of a pair that has no other half. -/
def replacement : Char := Char.ofNat 0xfffd

/-- The character behind a single unit. A half of a pair that stands alone is no character, and all of them
become the same one; two keys of an object that differ in such a half only are read as one key. -/
def charOfUnit (n : Nat) : Char :=
  if isHighSurrogate n || isLowSurrogate n then replacement else Char.ofNat n

/-- The character behind a pair of units. -/
def charOfPair (high low : Nat) : Char :=
  Char.ofNat (0x10000 + (high - 0xd800) * 0x400 + (low - 0xdc00))

/-- The character of a one-letter escape. -/
def escaped? : Char → Option Char
  | '"' => some '"'
  | '\\' => some '\\'
  | '/' => some '/'
  | 'b' => some (Char.ofNat 8)
  | 'f' => some (Char.ofNat 12)
  | 'n' => some '\n'
  | 'r' => some '\r'
  | 't' => some '\t'
  | _ => none

/-- Reads a string behind its opening quote; `acc` holds what was read, last character first. -/
def readChars : List Char → List Char → Read String
  | [], _ => none
  | '"' :: rest, acc => some (String.ofList acc.reverse, rest)
  | '\\' :: 'u' :: a :: b :: c :: d :: '\\' :: 'u' :: e :: f :: g :: h :: rest, acc =>
    match unit? a b c d, unit? e f g h with
    | some high, some low =>
      if isHighSurrogate high && isLowSurrogate low then
        readChars rest (charOfPair high low :: acc)
      else readChars ('\\' :: 'u' :: e :: f :: g :: h :: rest) (charOfUnit high :: acc)
    | some n, none => readChars ('\\' :: 'u' :: e :: f :: g :: h :: rest) (charOfUnit n :: acc)
    | none, _ => none
  | '\\' :: 'u' :: a :: b :: c :: d :: rest, acc =>
    match unit? a b c d with
    | some n => readChars rest (charOfUnit n :: acc)
    | none => none
  | '\\' :: c :: rest, acc =>
    match escaped? c with
    | some e => readChars rest (e :: acc)
    | none => none
  | c :: rest, acc => if c.toNat < 0x20 then none else readChars rest (c :: acc)
termination_by cs => cs.length

/-! ## Numbers -/

/-- The longest run of digits at the front. -/
def spanDigits (cs : List Char) : List Char × List Char :=
  cs.span Char.isDigit

/-- The digits of the whole part: a zero alone, or no zero in front. -/
def readWhole (cs : List Char) : Read (List Char) :=
  match cs with
  | '0' :: rest => some (['0'], rest)
  | _ =>
    match spanDigits cs with
    | ([], _) => none
    | (digits, rest) => some (digits, rest)

/-- The digits behind a point; none if there is no point. -/
def readFraction (cs : List Char) : Read (List Char) :=
  match cs with
  | '.' :: rest =>
    match spanDigits rest with
    | ([], _) => none
    | (digits, rest) => some (digits, rest)
  | _ => some ([], cs)

/-- The sign of an exponent and what is behind it. -/
def exponentSign : List Char → Bool × List Char
  | '-' :: rest => (true, rest)
  | '+' :: rest => (false, rest)
  | rest => (false, rest)

/-- The power of ten behind an exponent mark; zero if there is no mark. -/
def readExponent (cs : List Char) : Read Int :=
  match cs with
  | c :: rest =>
    if c == 'e' || c == 'E' then
      let (negative, rest) := exponentSign rest
      match spanDigits rest with
      | ([], _) => none
      | (digits, rest) =>
        let n : Int := Numeral.valueOf 10 digits
        some (if negative then -n else n, rest)
    else some (0, cs)
  | [] => some (0, cs)

def readUnsigned (negative : Bool) (cs : List Char) : Option (Value × List Char) := do
  let (whole, rest) ← readWhole cs
  let (fraction, rest) ← readFraction rest
  let (exponent, rest) ← readExponent rest
  let digits := Numeral.valueOf 10 (whole ++ fraction)
  return (.number (.ofDecimal negative digits (exponent - fraction.length)), rest)

def readNumber : List Char → Read Value
  | '-' :: rest => readUnsigned true rest
  | cs => readUnsigned false cs

/-! ## Values -/

mutual

/-- Reads one value. -/
def readValue : Nat → List Char → Read Value
  | 0, _ => none
  | fuel + 1, cs =>
    match skipBlanks cs with
    | 'n' :: 'u' :: 'l' :: 'l' :: rest => some (.null, rest)
    | 't' :: 'r' :: 'u' :: 'e' :: rest => some (.bool true, rest)
    | 'f' :: 'a' :: 'l' :: 's' :: 'e' :: rest => some (.bool false, rest)
    | '"' :: rest => (readChars rest []).map fun (s, rest) => (.string s, rest)
    | '[' :: rest =>
      match skipBlanks rest with
      | ']' :: rest => some (.array [], rest)
      | rest => readItems fuel rest []
    | '\x7b' :: rest =>
      match skipBlanks rest with
      | '\x7d' :: rest => some (.object [], rest)
      | rest => readMembers fuel rest []
    | cs => readNumber cs

/-- Reads the items of an array up to its closing bracket. -/
def readItems : Nat → List Char → List Value → Read Value
  | 0, _, _ => none
  | fuel + 1, cs, acc =>
    match readValue fuel cs with
    | none => none
    | some (v, rest) =>
      match skipBlanks rest with
      | ',' :: rest => readItems fuel rest (v :: acc)
      | ']' :: rest => some (.array (v :: acc).reverse, rest)
      | _ => none

/-- Reads the members of an object up to its closing brace. -/
def readMembers : Nat → List Char → List (String × Value) → Read Value
  | 0, _, _ => none
  | fuel + 1, cs, acc =>
    match skipBlanks cs with
    | '"' :: rest =>
      match readChars rest [] with
      | none => none
      | some (key, rest) =>
        match skipBlanks rest with
        | ':' :: rest =>
          match readValue fuel rest with
          | none => none
          | some (v, rest) =>
            match skipBlanks rest with
            | ',' :: rest => readMembers fuel rest ((key, v) :: acc)
            | '\x7d' :: rest => some (.object (Entries.ofPairs ((key, v) :: acc).reverse), rest)
            | _ => none
        | _ => none
    | _ => none

end

/-- The value that a JSON text denotes, `none` if it is not JSON. -/
def read? (text : String) : Option Value :=
  let cs := text.toList
  match readValue (2 * cs.length + 2) cs with
  | some (v, rest) => if (skipBlanks rest).isEmpty then some v else none
  | none => none

end ProbeAtlas.Json
