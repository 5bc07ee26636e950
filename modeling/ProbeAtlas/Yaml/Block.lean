import ProbeAtlas.Yaml.Spot

/-!
# ProbeAtlas — block scalars in YAML

A block scalar is a header and the lines below it that are indented deep enough. A literal scalar keeps
its line breaks, a folded one joins neighbouring lines. The header may fix the indentation and what
becomes of the line breaks at the end. A text that nothing indents is no block scalar.
-/

namespace ProbeAtlas.Yaml

/-- What becomes of the line breaks at the end: one is kept, none, or all. -/
inductive Chomping where
  | clip
  | strip
  | keep
deriving DecidableEq, Repr

/-- The marks of a header: chomping and explicit indentation. -/
structure BlockHeader where
  chomping : Chomping
  indent : Option Nat

/-- Reads the marks of a header, each at most once. -/
def headerMarks : List Char → BlockHeader → Option BlockHeader
  | [], h => some h
  | c :: rest, h =>
    if c == '+' || c == '-' then
      if h.chomping = .clip then
        headerMarks rest { h with chomping := if c == '+' then .keep else .strip }
      else none
    else if c == '0' || h.indent.isSome then none
    else headerMarks rest { h with indent := some (c.toNat - '0'.toNat) }

/-- A block scalar as far as it has been read. -/
structure BlockText where
  /-- The text, last character first. -/
  text : List Char
  /-- The indentation of the text; fixed once `fixed`. -/
  indent : Nat
  fixed : Bool
  /-- Whether a line has been read. -/
  started : Bool
  /-- Empty lines since then. -/
  empty : Nat
  /-- Whether the last line was indented deeper than the text. -/
  deeper : Bool

/-- The line breaks before a line that begins with white space or not. -/
def breaksBefore (folded white : Bool) (b : BlockText) : List Char :=
  let all := if b.started then b.empty + 1 else b.empty
  if !folded || white then List.replicate all '\n'
  else if b.deeper then List.replicate (b.empty + 1) '\n'
  else if b.empty = 0 then if b.started then [' '] else []
  else List.replicate b.empty '\n'

/-- The line breaks at the end. -/
def breaksAtEnd (chomping : Chomping) (b : BlockText) : List Char :=
  match chomping with
  | .strip => []
  | .clip => if b.started then ['\n'] else []
  | .keep => List.replicate (if b.started then b.empty + 1 else b.empty) '\n'

/-- Reads line after line from the end of the line before; gives the text, last character first. -/
def blockLoop (folded : Bool) (chomping : Chomping) : Nat → Spot → BlockText → Option (List Char × Spot)
  | 0, _, _ => none
  | fuel + 1, s, b =>
    if s.rest.isEmpty then some (b.text, s)
    else
      match s.lineBreak? with
      | none => none
      | some s =>
        let s := s.countIndent (if b.fixed then some b.indent else none)
        let b := if b.fixed then b else { b with indent := max b.indent s.indent }
        if startsWith isBreak s.rest then
          blockLoop folded chomping fuel s { b with empty := b.empty + 1 }
        else if !b.fixed && b.indent = 0 then none
        else if s.indent < b.indent then some (breaksAtEnd chomping b ++ b.text, s)
        else
          let white := startsWith isWhite s.rest
          let breaks := breaksBefore folded white b
          let (line, s) := s.passWhile (!isBreak ·)
          if line.all isPrintable then
            blockLoop folded chomping fuel s
              { text := line.reverse ++ breaks ++ b.text, indent := b.indent, fixed := true
                started := true, empty := 0, deeper := white }
          else none

/-- Reads a block scalar in a node of the given indentation, if there is one. -/
def block? (nodeIndent : Nat) (s : Spot) : Option (Option String × Spot) :=
  let read (folded : Bool) : Option (Option String × Spot) := do
    let (marks, s) := s.next.passWhile fun c => c == '+' || c == '-' || c.isDigit
    let header ← headerMarks marks ⟨.clip, none⟩
    let (white, s) := s.passWhile isWhite
    let s := if !white.isEmpty && startsWith (· == '#') s.rest then (s.passWhile (!isBreak ·)).2 else s
    let indent := match header.indent with
      | some n => nodeIndent + n - 1
      | none => nodeIndent
    let (text, s) ← blockLoop folded header.chomping (s.rest.length + 1) s
      ⟨[], indent, header.indent.isSome, false, 0, false⟩
    return (some (String.ofList text.reverse), s)
  match s.rest with
  | '|' :: _ => read false
  | '>' :: _ => read true
  | _ => some (none, s)

end ProbeAtlas.Yaml
