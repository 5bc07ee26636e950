import ProbeAtlas.Text.Numeral

/-!
# ProbeAtlas — quoted text in literals

Inside quotes a line feed and a tab are written by letter, any other control character by three octal
digits, and a quote or backslash behind a backslash. Reading also takes octal escapes of other
characters; a backslash that begins no escape stands for itself, so every text can be read.
-/

namespace ProbeAtlas.Quoted

/-- How a character is written between quotes. -/
def escape (c : Char) : List Char :=
  if c = '\n' then ['\\', 'n']
  else if c = '\t' then ['\\', 't']
  else if c.toNat < 32 then '\\' :: Numeral.octal 3 c.toNat
  else if c = '"' then ['\\', '"']
  else if c = '\\' then ['\\', '\\']
  else [c]

/-- The text between the quotes. -/
def encode (cs : List Char) : List Char :=
  cs.flatMap escape

/-- The character that three octal digits write. -/
def octal? (a b c : Char) : Option Char :=
  if Numeral.isOctalDigit a && Numeral.isOctalDigit b && Numeral.isOctalDigit c then
    some (Char.ofNat (Numeral.valueOf 8 [a, b, c]))
  else none

/-- Reads the escapes, from left to right. -/
def decode : List Char → List Char
  | [] => []
  | '\\' :: '\\' :: rest => '\\' :: decode rest
  | '\\' :: '"' :: rest => '"' :: decode rest
  | '\\' :: 'n' :: rest => '\n' :: decode rest
  | '\\' :: 't' :: rest => '\t' :: decode rest
  | '\\' :: a :: b :: c :: rest =>
    match octal? a b c with
    | some x => x :: decode rest
    | none => '\\' :: decode (a :: b :: c :: rest)
  | c :: rest => c :: decode rest

/-- The text with its quotes. -/
def wrap (text : String) : String :=
  String.ofList ('"' :: encode text.toList ++ ['"'])

/-- The text of a quoted literal, `none` if it does not begin and end with a quote of its own. -/
def unwrap? (literal : String) : Option String :=
  match literal.toList with
  | '"' :: rest =>
    match rest.reverse with
    | '"' :: inner => some (String.ofList (decode inner.reverse))
    | _ => none
  | _ => none

end ProbeAtlas.Quoted
