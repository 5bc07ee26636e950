import ProbeAtlas.Text.Units

/-!
# ProbeAtlas — a spot in a YAML text

Reading depends on where a character stands: in which column, behind which character, on a line of
which indentation. A spot is the unread text with these facts. Separation between tokens, that is,
blanks, comments and line breaks, is skipped here.
-/

namespace ProbeAtlas.Yaml

/-- The unread text and its surroundings. -/
structure Spot where
  rest : List Char
  /-- The character before; a line feed at the start of the text. -/
  last : Char
  /-- The distance from the start of the line, in 16-bit units. -/
  column : Nat
  line : Nat
  /-- The number of blanks that the line begins with. -/
  indent : Nat
  /-- Whether a tab was skipped on this line. -/
  tab : Bool

def isWhite (c : Char) : Bool :=
  c == ' ' || c == '\t'

def isBreak (c : Char) : Bool :=
  c == '\n' || c == '\r'

def isSpace (c : Char) : Bool :=
  isWhite c || isBreak c

def isFlowMark (c : Char) : Bool :=
  c == ',' || c == '[' || c == ']' || c == '\x7b' || c == '\x7d'

/-- Whether the text begins with a character of the class; the end of the text is in no class. -/
def startsWith (p : Char → Bool) : List Char → Bool
  | [] => false
  | c :: _ => p c

/-- Whether the text begins with a mark that ends a document: three dashes or dots and a space. -/
def startsDocumentMark : List Char → Bool
  | a :: b :: c :: rest =>
    (a == '-' || a == '.') && a == b && b == c && (rest.isEmpty || startsWith isSpace rest)
  | _ => false

namespace Spot

def start (text : List Char) : Spot :=
  ⟨text, '\n', 0, 0, 0, false⟩

/-- Passes over the first characters of the text, none of which is a line break. -/
def pass (s : Spot) (run : List Char) : Spot :=
  { s with
    rest := s.rest.drop run.length
    last := run.getLast?.getD s.last
    column := s.column + units16 run }

/-- Passes over one character. -/
def next (s : Spot) : Spot :=
  s.pass (s.rest.take 1)

/-- Passes over the longest run of characters of a class. -/
def passWhile (p : Char → Bool) (s : Spot) : List Char × Spot :=
  let run := s.rest.takeWhile p
  (run, s.pass run)

/-- Passes over a line break. -/
def lineBreak? (s : Spot) : Option Spot :=
  let behind (rest : List Char) : Spot :=
    { s with rest, last := '\n', column := 0, line := s.line + 1, tab := false }
  match s.rest with
  | '\r' :: '\n' :: rest => some (behind rest)
  | '\r' :: rest => some (behind rest)
  | '\n' :: rest => some (behind rest)
  | _ => none

/-- Passes over the blanks at the start of a line, at most `limit` of them, and notes their number. -/
def countIndent (s : Spot) (limit : Option Nat) : Spot :=
  let blanks := s.rest.takeWhile (· == ' ')
  let run := (limit.map blanks.take).getD blanks
  { s.pass run with indent := run.length }

/-- Passes over white space and, if asked for, a comment. -/
def skipLine (comments : Bool) (s : Spot) : Spot :=
  let (white, s) := s.passWhile isWhite
  let s := { s with tab := s.tab || white.contains '\t' }
  if comments && startsWith (· == '#') s.rest then (s.passWhile (!isBreak ·)).2 else s

/-- Passes over the separation of tokens, at most `fuel` lines of it. Counts the line breaks. -/
def separate (comments : Bool) : Nat → Spot → Nat × Spot
  | 0, s => (0, s)
  | fuel + 1, s =>
    let s := s.skipLine comments
    match s.lineBreak? with
    | none => (0, s)
    | some s =>
      let (breaks, s) := separate comments fuel (s.countIndent none)
      (breaks + 1, s)

/-- Passes over the whole separation before the next token. Counts the line breaks. -/
def skip (comments : Bool) (s : Spot) : Nat × Spot :=
  separate comments (s.rest.length + 1) s

/-- Whether a document ends here. -/
def atDocumentMark (s : Spot) : Bool :=
  s.column == 0 && startsDocumentMark s.rest

end Spot

/-- The line breaks inside a folded text: one is a blank, of several one is dropped. -/
def foldBreaks (breaks : Nat) : List Char :=
  if breaks = 1 then [' '] else List.replicate (breaks - 1) '\n'

/-- Whether a text may hold the character. -/
def isPrintable (c : Char) : Bool :=
  let n := c.toNat
  !(n ≤ 0x08 || n == 0x0b || n == 0x0c || (0x0e ≤ n && n ≤ 0x1f) || (0x7f ≤ n && n ≤ 0x84) ||
    (0x86 ≤ n && n ≤ 0x9f) || n == 0xfffe || n == 0xffff)

end ProbeAtlas.Yaml
