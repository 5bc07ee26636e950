import ProbeAtlas.Json.Reader
import ProbeAtlas.Text.Base64
import ProbeAtlas.Text.Numeral
import ProbeAtlas.Yaml.Graph

/-!
# ProbeAtlas — the meaning of YAML scalars

A plain scalar denotes null, a truth value, a number or an instant if it is spelled like one, else its
own text. Each spelling has a tag, and a tag in front of a scalar demands the spelling.
-/

namespace ProbeAtlas.Yaml

/-! ## Null, truth values, numbers -/

def null? (text : String) : Option Item :=
  if text ∈ ["~", "null", "Null", "NULL"] then some .null else none

def bool? (text : String) : Option Item :=
  if text ∈ ["true", "True", "TRUE"] then some (.bool true)
  else if text ∈ ["false", "False", "FALSE"] then some (.bool false)
  else none

/-- The sign in front of a number. -/
def splitSign : List Char → Bool × List Char
  | '-' :: rest => (true, rest)
  | '+' :: rest => (false, rest)
  | rest => (false, rest)

/-- The value of digits in a base up to sixteen; there has to be one. -/
def digits? (base : Nat) (cs : List Char) : Option Nat :=
  let step (acc : Option Nat) (c : Char) : Option Nat := do
    let d ← Numeral.hexDigit? c
    if d < base then return (← acc) * base + d else none
  if cs.isEmpty then none else cs.foldl step (some 0)

/-- A number that is not too large. -/
def finite? : Number → Option Item
  | .finite negative m e => some (.number (.finite negative m e))
  | _ => none

/-- A whole number: decimal, or marked as binary, octal or hexadecimal. -/
def int? (text : String) : Option Item :=
  let (negative, cs) := splitSign text.toList
  let magnitude :=
    match cs with
    | '0' :: 'b' :: rest => digits? 2 rest
    | '0' :: 'o' :: rest => digits? 8 rest
    | '0' :: 'x' :: rest => digits? 16 rest
    | cs => digits? 10 cs
  magnitude.bind fun n => finite? (.ofRatio negative n 1)

/-- A decimal with at least one digit before the point, or behind a point that begins it. -/
def decimal? (text : String) : Option Number :=
  let (negative, cs) := splitSign text.toList
  let signed := cs.length ≠ text.toList.length
  let (whole, rest) := cs.span Char.isDigit
  let (fraction, rest) :=
    match rest with
    | '.' :: rest => rest.span Char.isDigit
    | rest => ([], rest)
  if whole.isEmpty && (fraction.isEmpty || signed) then none
  else
    match Json.readExponent rest with
    | some (exponent, []) =>
      let digits := Numeral.valueOf 10 (whole ++ fraction)
      some (.ofDecimal negative digits (exponent - fraction.length))
    | _ => none

/-- A number: a decimal that is not too large, an infinity or the undefined number. -/
def float? (text : String) : Option Item :=
  if text ∈ [".inf", ".Inf", ".INF", "+.inf", "+.Inf", "+.INF"] then some (.number (.infinite false))
  else if text ∈ ["-.inf", "-.Inf", "-.INF"] then some (.number (.infinite true))
  else if text ∈ [".nan", ".NaN", ".NAN"] then some (.number .nan)
  else (decimal? text).bind finite?

/-! ## Instants -/

/-- The value of at least `least` and at most `most` digits, and the text behind them. -/
def takeNumber? (least most : Nat) (cs : List Char) : Option (Nat × List Char) :=
  let digits := (cs.take most).takeWhile Char.isDigit
  if digits.length < least then none else some (Numeral.valueOf 10 digits, cs.drop digits.length)

/-- The text behind a given character. -/
def after? (c : Char) : List Char → Option (List Char)
  | d :: rest => if c = d then some rest else none
  | [] => none

/-- By how many seconds the zone behind a time of day is ahead: none, the letter, or a signed offset. -/
def zone? (cs : List Char) : Option Int :=
  match cs.dropWhile fun c => c == ' ' || c == '\t' with
  | [] => if cs.isEmpty then some 0 else none
  | ['Z'] => some 0
  | sign :: rest => do
    let (hours, rest) ← takeNumber? 1 2 rest
    let minutes ←
      match rest with
      | [] => some 0
      | ':' :: rest =>
        match takeNumber? 2 2 rest with
        | some (minutes, []) => some minutes
        | _ => none
      | _ => none
    let offset : Int := (hours * 60 + minutes : Nat) * 60
    if sign == '+' then some offset else if sign == '-' then some (-offset) else none

/-- A time of day in a zone, on the given day. Fractions of a second count for nothing. -/
def time? (year month day : Nat) (cs : List Char) : Option Instant := do
  let (hour, cs) ← takeNumber? 1 2 cs
  let cs ← after? ':' cs
  let (minute, cs) ← takeNumber? 2 2 cs
  let cs ← after? ':' cs
  let (second, cs) ← takeNumber? 2 2 cs
  let offset ←
    match cs with
    | '.' :: rest => zone? (rest.dropWhile Char.isDigit)
    | cs => zone? cs
  return (Instant.ofFields year month day hour minute second).ahead offset

/-- The text behind the separator between a date and a time of day. -/
def timeOf? : List Char → Option (List Char)
  | 'T' :: rest => some rest
  | 't' :: rest => some rest
  | cs => if cs.head?.any fun c => c == ' ' || c == '\t' then
      some (cs.dropWhile fun c => c == ' ' || c == '\t') else none

/-- A date whose month and day have at least `least` digits, and the text behind it. -/
def date? (least : Nat) (cs : List Char) : Option ((Nat × Nat × Nat) × List Char) := do
  let (year, cs) ← takeNumber? 4 4 cs
  let cs ← after? '-' cs
  let (month, cs) ← takeNumber? least 2 cs
  let cs ← after? '-' cs
  let (day, cs) ← takeNumber? least 2 cs
  return ((year, month, day), cs)

/-- A date with two-digit month and day, or a date with a time of day. -/
def timestamp? (text : String) : Option Item :=
  match date? 2 text.toList with
  | some ((year, month, day), []) => some (.instant (.ofFields year month day 0 0 0))
  | _ => do
    let ((year, month, day), cs) ← date? 1 text.toList
    return .instant (← time? year month day (← timeOf? cs))

/-! ## Tags -/

/-- What a plain scalar is tagged with until its meaning is found. -/
def openTag : String := "?"

def coreTag (name : String) : String :=
  "tag:yaml.org,2002:" ++ name

def mergeTag : String := coreTag "merge"

/-- The mark of a key that stands for the entries of other mappings. -/
def merge? (text : String) : Option Item :=
  if text = "<<" then some (.text text) else none

/-- The tag and the meaning of a plain scalar. -/
def resolvePlain (text : String) : String × Item :=
  let attempts : List (String × Option Item) :=
    [(coreTag "null", null? text), (coreTag "bool", bool? text), (coreTag "int", int? text),
      (coreTag "float", float? text), (coreTag "timestamp", timestamp? text), (mergeTag, merge? text)]
  (attempts.findSome? fun (tag, item) => item.map fun item => (tag, item)).getD (openTag, .text text)

/-- The spelling that a tag demands of a text. -/
def resolveText? (tag text : String) : Option Item :=
  if tag = coreTag "null" then null? text
  else if tag = coreTag "bool" then bool? text
  else if tag = coreTag "int" then int? text
  else if tag = coreTag "float" then float? text
  else if tag = coreTag "timestamp" then timestamp? text
  else if tag = coreTag "binary" then (Base64.decode? text).map .bytes
  else if tag = mergeTag then merge? text
  else none

/-! ## Tags on values

A tag may also stand in front of a scalar that has been read already and is a value, not a text. Some
types test such a value by its text or not at all, take it for a spelling of theirs, and then cannot read
it.
-/

/-- Whether a value is taken for a decimal: its text is spelled like one. -/
def looksDecimal : Item → Bool
  | .number n => (float? n.text).isSome
  | .bytes values => (float? (Item.bytesText values)).isSome
  | _ => false

/-- Whether a value is taken for a whole number: it is asked for its first character. -/
def looksWhole : Item → Bool
  | .bytes values => !values.isEmpty
  | _ => false

/-- Whether a tag takes a value that is neither null nor a text for a spelling of its type. -/
def mistakes (tag : String) (item : Item) : Bool :=
  if tag = coreTag "float" then looksDecimal item
  else if tag = coreTag "int" then looksWhole item
  else if tag = openTag then looksWhole item || looksDecimal item
  else tag == coreTag "binary"

end ProbeAtlas.Yaml
