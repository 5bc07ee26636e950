import ProbeAtlas.Number.Shortest
import ProbeAtlas.Text.Numeral
import ProbeAtlas.Value.Basic

/-!
# ProbeAtlas — writing JSON text

Two layouts: `pretty` breaks lines inside arrays and objects and indents by two blanks a level,
`compact` stays on one line. Empty arrays and objects are written without a break in both. Only what
has to be escaped in a string is escaped.
-/

namespace ProbeAtlas.Json

/-- A character inside a string. -/
def escapeChar (c : Char) : List Char :=
  match c with
  | '"' => ['\\', '"']
  | '\\' => ['\\', '\\']
  | '\n' => ['\\', 'n']
  | '\r' => ['\\', 'r']
  | '\t' => ['\\', 't']
  | c =>
    if c.toNat = 8 then ['\\', 'b']
    else if c.toNat = 12 then ['\\', 'f']
    else if c.toNat < 0x20 then '\\' :: 'u' :: (Nat.toDigits 16 c.toNat).leftpad 4 '0'
    else [c]

/-- A string with its quotes. -/
def quote (s : String) : String :=
  String.ofList ('"' :: s.toList.flatMap escapeChar ++ ['"'])

/-- The text of a number; JSON has no word for the numbers that are not finite. -/
def numberText : Number → String
  | .finite n m e => (Number.finite n m e).text
  | _ => "null"

/-- How the parts of an array or object are set apart. -/
structure Layout where
  /-- What stands before an item or a closing bracket at the given depth. -/
  lineBreak : Nat → String
  colon : String

mutual

/-- The text of a value at the given depth. -/
def write (layout : Layout) (depth : Nat) : Value → String
  | .null => "null"
  | .bool b => if b then "true" else "false"
  | .number n => numberText n
  | .string s => quote s
  | .array [] => "[]"
  | .array (v :: vs) =>
    "[" ++ layout.lineBreak (depth + 1) ++ write layout (depth + 1) v ++
      writeItems layout (depth + 1) vs ++ layout.lineBreak depth ++ "]"
  | .object [] => "\x7b\x7d"
  | .object ((k, v) :: es) =>
    "\x7b" ++ layout.lineBreak (depth + 1) ++ quote k ++ layout.colon ++ write layout (depth + 1) v ++
      writeMembers layout (depth + 1) es ++ layout.lineBreak depth ++ "\x7d"
  | .date text => quote text

/-- The items after the first one, each behind its comma. -/
def writeItems (layout : Layout) (depth : Nat) : List Value → String
  | [] => ""
  | v :: vs => "," ++ layout.lineBreak depth ++ write layout depth v ++ writeItems layout depth vs

/-- The members after the first one, each behind its comma. -/
def writeMembers (layout : Layout) (depth : Nat) : List (String × Value) → String
  | [] => ""
  | (k, v) :: es =>
    "," ++ layout.lineBreak depth ++ quote k ++ layout.colon ++ write layout depth v ++
      writeMembers layout depth es

end

/-- One line for every item, two blanks a level. -/
def pretty (v : Value) : String :=
  write ⟨fun depth => String.ofList ('\n' :: List.replicate (2 * depth) ' '), ": "⟩ 0 v

/-- All on one line. -/
def compact (v : Value) : String :=
  write ⟨fun _ => "", ":"⟩ 0 v

end ProbeAtlas.Json
