import ProbeAtlas.Yaml.Node

/-!
# ProbeAtlas — YAML documents

A text holds documents, each with directives in front and marks around it. Here a text holds at most one:
`load` gives null for no document and refuses more than one.
-/

namespace ProbeAtlas.Yaml

/-! ## Directives -/

/-- Reads the arguments of a directive up to the end of its line or a comment. -/
def readArguments : Nat → List String → Reader (List String)
  | 0, acc => return acc.reverse
  | fuel + 1, acc => do
    let (_, s) := (← Reader.spot).passWhile isWhite
    Reader.moveTo s
    match s.rest with
    | [] => return acc.reverse
    | c :: _ =>
      if c == '#' then
        Reader.moveTo (s.passWhile (!isBreak ·)).2
        return acc.reverse
      else if isBreak c then return acc.reverse
      else
        let (word, s) := s.passWhile (!isSpace ·)
        Reader.moveTo s
        readArguments fuel (String.ofList word :: acc)

/-- Whether the text is a version of the language that can be read. -/
def isVersion (text : String) : Bool :=
  match text.toList.span Char.isDigit with
  | (major, '.' :: minor) =>
    !major.isEmpty && Numeral.valueOf 10 major == 1 && !minor.isEmpty && minor.all Char.isDigit
  | _ => false

/-- Whether the text is a tag handle. -/
def isHandle (text : String) : Bool :=
  match text.toList with
  | ['!'] => true
  | ['!', '!'] => true
  | '!' :: rest => rest.getLast? == some '!' && rest.dropLast.all isHandleChar && 2 ≤ rest.length
  | _ => false

/-- Obeys a directive; gives whether the version is known now. Unknown directives are passed over. -/
def obey (versioned : Bool) : String → List String → Reader Bool
  | "YAML", [version] => if versioned || !isVersion version then Reader.malformed else return true
  | "YAML", _ => Reader.malformed
  | "TAG", [handle, start] => do
    let state ← get
    match handleText? start.toList with
    | none => Reader.malformed
    | some start =>
      if !isHandle handle || (Entries.get? state.handles handle).isSome then Reader.malformed
      else
        set { state with handles := Entries.put handle start state.handles }
        return versioned
  | "TAG", _ => Reader.malformed
  | _, _ => return versioned

/-- Reads the directives before a document; gives whether there were any. -/
def readDirectives : Nat → Bool → Bool → Reader Bool
  | 0, _, seen => return seen
  | fuel + 1, versioned, seen => do
    let _ ← Reader.skip
    let s ← Reader.spot
    match s.rest with
    | '%' :: _ =>
      if s.indent ≠ 0 then return seen
      else
        let (name, s) := s.next.passWhile (!isSpace ·)
        Reader.moveTo s
        if name.isEmpty then Reader.malformed
        else
          let arguments ← readArguments (s.rest.length + 1) []
          match (← Reader.spot).lineBreak? with
          | none => pure ()
          | some s => Reader.moveTo s
          let versioned ← obey versioned (String.ofList name) arguments
          readDirectives fuel versioned true
    | _ => return seen

/-! ## Documents -/

/-- Passes over three characters and the separation behind them. -/
def passMark : Reader Unit := do
  let s ← Reader.spot
  Reader.moveTo (s.pass (s.rest.take 3))
  let _ ← Reader.skip

/-- Reads one document and gives its root. -/
def readDocument : Reader Item := do
  modify fun state => { state with anchors := [], handles := [] }
  let fuel := Reader.budget (← Reader.rest)
  let directives ← readDirectives fuel false false
  let _ ← Reader.skip
  let s ← Reader.spot
  if s.indent = 0 && s.rest.take 3 == ['-', '-', '-'] then passMark
  else if directives then Reader.malformed
  let s ← Reader.spot
  let node ← readNode fuel ((s.indent : Int) - 1) .blockOut false true
  let _ ← Reader.skip
  let s ← Reader.spot
  if s.atDocumentMark then
    if startsWith (· == '.') s.rest then passMark
    return node.item
  else if s.rest.isEmpty then return node.item
  else Reader.malformed

/-- Reads documents until the text ends. -/
def readDocuments : Nat → List Item → Reader (List Item)
  | 0, _ => Reader.malformed
  | fuel + 1, roots => do
    if (← Reader.rest).isEmpty then return roots.reverse
    else
      let root ← readDocument
      readDocuments fuel (root :: roots)

/-- The text as it is read: without a byte order mark in front, and with a line break at its end. -/
def prepare (text : List Char) : List Char :=
  let closed :=
    match text.getLast? with
    | none => text
    | some c => if isBreak c then text else text ++ ['\n']
  match closed with
  | '\ufeff' :: rest => rest
  | cs => cs

/-- A document: a graph and the node at which it begins. -/
structure Document where
  graph : Graph
  root : Item

/-- The tree that a document stands for, down to a depth. -/
def Document.view (d : Document) (depth : Nat) : Value :=
  d.graph.view depth d.root

/-- The document that a text holds. -/
def load (text : String) : Except LoadError Document :=
  let cs := prepare text.toList
  if cs.contains '\x00' then .error .malformed
  else
    let start := (Spot.start cs).countIndent none
    match (readDocuments (cs.length + 1) []).run (.start start) with
    | .error e => .error e
    | .ok ([], state) => .ok ⟨state.graph, .null⟩
    | .ok ([root], state) => .ok ⟨state.graph, root⟩
    | .ok _ => .error .malformed

end ProbeAtlas.Yaml
