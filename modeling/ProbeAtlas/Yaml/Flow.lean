import ProbeAtlas.Json.Reader
import ProbeAtlas.Text.Numeral
import ProbeAtlas.Yaml.Spot

/-!
# ProbeAtlas — plain and quoted scalars in YAML

A plain scalar runs up to a comment, a colon that ends a key, or the end of its block. A quoted scalar
runs up to its quote. Both may continue on further lines, which are folded: white space before a line break
gets lost.

`none` means that the text is malformed. The budgets are never used up: each step passes over at least
one character of a text that is at most as long as the budget.
-/

namespace ProbeAtlas.Yaml

/-! ## Plain scalars -/

/-- Characters that cannot begin a plain scalar. -/
def isIndicator (c : Char) : Bool :=
  "#&*!|>'\"%@`".toList.contains c

/-- Whether a plain scalar may begin here. -/
def startsPlain (inFlow : Bool) : List Char → Bool
  | [] => false
  | c :: rest =>
    !(isSpace c || isFlowMark c || isIndicator c) &&
      !((c == '?' || c == '-') && (startsWith isSpace rest || (inFlow && startsWith isFlowMark rest)))

/-- Whether a plain scalar ends before the next character. -/
def endsPlain (inFlow : Bool) (s : Spot) : Bool :=
  match s.rest with
  | [] => true
  | ':' :: rest => startsWith isSpace rest || (inFlow && startsWith isFlowMark rest)
  | '#' :: _ => isSpace s.last
  | c :: _ => s.atDocumentMark || (inFlow && isFlowMark c)

/-- A plain scalar as far as it has been read. -/
structure PlainText where
  /-- The text, last character first. -/
  text : List Char
  /-- The white space behind it on the same line, last character first. -/
  white : List Char
  /-- The line breaks behind it. -/
  breaks : Nat
  /-- The spot behind the text. -/
  stop : Spot

/-- Reads on from `s` in a block of the given indentation; gives the text, last character first. -/
def plainLoop (inFlow : Bool) (indent : Int) : Nat → Spot → PlainText → List Char × Spot
  | 0, s, p => (p.text, s)
  | fuel + 1, s, p =>
    if endsPlain inFlow s then (p.text, s)
    else
      match s.rest with
      | [] => (p.text, s)
      | c :: _ =>
        if isBreak c then
          let (breaks, behind) := s.skip false
          if indent ≤ behind.indent then
            plainLoop inFlow indent fuel behind { p with white := [], breaks }
          else (p.text, { p.stop with tab := behind.tab })
        else
          let p :=
            if p.breaks = 0 then p
            else { p with text := (foldBreaks p.breaks).reverse ++ p.text, white := [], breaks := 0 }
          let s := s.next
          if isWhite c then plainLoop inFlow indent fuel s { p with white := c :: p.white }
          else plainLoop inFlow indent fuel s ⟨c :: p.white ++ p.text, [], 0, s⟩

/-- Reads a plain scalar if there is one. -/
def plain? (inFlow : Bool) (indent : Int) (s : Spot) : Option (Option String × Spot) :=
  if startsPlain inFlow s.rest then
    let (text, behind) := plainLoop inFlow indent (s.rest.length + 1) s ⟨[], [], 0, s⟩
    if text.isEmpty then some (none, s)
    else if text.all isPrintable then some (some (String.ofList text.reverse), behind)
    else none
  else some (none, s)

/-! ## Quoted scalars -/

/-- Whether a quoted scalar may hold the character as it is. -/
def isQuotable (c : Char) : Bool :=
  c == '\t' || 0x20 ≤ c.toNat

/-- Reads a single-quoted scalar behind its opening quote; `text` holds what was read, last first. Its
first `white` characters are white space as it stands in the text, which a line break removes. -/
def singleLoop : Nat → Spot → List Char → Nat → Option (String × Spot)
  | 0, _, _, _ => none
  | fuel + 1, s, text, white =>
    match s.rest with
    | [] => none
    | '\x27' :: '\x27' :: _ => singleLoop fuel s.next.next ('\x27' :: text) 0
    | '\x27' :: _ => some (String.ofList text.reverse, s.next)
    | c :: _ =>
      if isBreak c then
        let (breaks, behind) := s.skip false
        singleLoop fuel behind ((foldBreaks breaks).reverse ++ text.drop white) 0
      else if s.atDocumentMark || !isQuotable c then none
      else singleLoop fuel s.next (c :: text) (if isWhite c then white + 1 else 0)

/-- The code of a one-letter escape. -/
def escapeCode? : Char → Option Nat
  | '0' => some 0
  | 'a' => some 7
  | 'b' => some 8
  | 't' => some 9
  | '\t' => some 9
  | 'n' => some 10
  | 'v' => some 11
  | 'f' => some 12
  | 'r' => some 13
  | 'e' => some 27
  | ' ' => some 32
  | '"' => some 34
  | '/' => some 47
  | '\\' => some 92
  | 'N' => some 0x85
  | '_' => some 0xa0
  | 'L' => some 0x2028
  | 'P' => some 0x2029
  | _ => none

/-- How many hexadecimal digits an escape has. -/
def hexLength? : Char → Option Nat
  | 'x' => some 2
  | 'u' => some 4
  | 'U' => some 8
  | _ => none

/-- The value of exactly `count` hexadecimal digits. -/
def hexCode? (count : Nat) (cs : List Char) : Option Nat :=
  let digits := cs.take count
  if digits.length < count then none
  else digits.foldl (fun acc c => do return (← acc) * 16 + (← Numeral.hexDigit? c)) (some 0)

/-- The units of an escaped number of at most 32 bits. Its upper half counts as negative, and a number
that is negative or in the basic plane is one unit. -/
def escapeUnits (n : Nat) : List Nat :=
  let units := if n < 0x10000 || 0x80000000 ≤ n then [n] else unitPair n
  units.map (· % 0x10000)

/-- The characters behind units; a pair of halves makes one character. -/
def charsOfUnits : List Nat → List Char
  | [] => []
  | [n] => [Json.charOfUnit n]
  | high :: low :: rest =>
    if Json.isHighSurrogate high && Json.isLowSurrogate low then
      Json.charOfPair high low :: charsOfUnits rest
    else Json.charOfUnit high :: charsOfUnits (low :: rest)

/-- Reads a double-quoted scalar behind its opening quote; `units` holds what was read, last first. The
first `white` units are white space as it stands in the text, which a line break removes. -/
def doubleLoop : Nat → Spot → List Nat → Nat → Option (String × Spot)
  | 0, _, _, _ => none
  | fuel + 1, s, units, white =>
    match s.rest with
    | [] => none
    | '"' :: _ => some (String.ofList (charsOfUnits units.reverse), s.next)
    | '\\' :: c :: rest =>
      if isBreak c then doubleLoop fuel (s.next.skip false).2 units 0
      else
        match escapeCode? c with
        | some n => doubleLoop fuel s.next.next (n :: units) 0
        | none =>
          match hexLength? c with
          | none => none
          | some count =>
            match hexCode? count rest with
            | none => none
            | some n =>
              doubleLoop fuel (s.pass ('\\' :: c :: rest.take count)) ((escapeUnits n).reverse ++ units) 0
    | c :: _ =>
      if isBreak c then
        let (breaks, behind) := s.skip false
        doubleLoop fuel behind ((foldBreaks breaks).reverse.map Char.toNat ++ units.drop white) 0
      else if s.atDocumentMark || !isQuotable c then none
      else doubleLoop fuel s.next ((unitsOf c).reverse ++ units) (if isWhite c then white + 1 else 0)

/-- Reads a quoted scalar if there is one. -/
def quoted? (s : Spot) : Option (Option String × Spot) :=
  let fuel := s.rest.length + 1
  match s.rest with
  | '\x27' :: _ => (singleLoop fuel s.next [] 0).map fun (text, s) => (some text, s)
  | '"' :: _ => (doubleLoop fuel s.next [] 0).map fun (text, s) => (some text, s)
  | _ => some (none, s)

end ProbeAtlas.Yaml
