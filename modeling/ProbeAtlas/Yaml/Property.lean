import ProbeAtlas.Yaml.Mapping

/-!
# ProbeAtlas — tags and anchors of YAML nodes

In front of a node may stand a tag, which fixes its type, and an anchor, which names it.
-/

namespace ProbeAtlas.Yaml

/-! ## Names and tags -/

/-- The characters of a name behind an anchor or alias mark. -/
def isNameChar (c : Char) : Bool :=
  !isSpace c && !isFlowMark c

/-- Reads a name, which must not be empty. -/
def readName : Reader String := do
  let (name, s) := (← Reader.spot).passWhile isNameChar
  if name.isEmpty then Reader.malformed
  else
    Reader.moveTo s
    return String.ofList name

/-- The characters of a tag that need no escape. -/
def isTagChar (c : Char) : Bool :=
  c.isAlphanum || "-#;/?:@&=+$,_.!~*'()[]".toList.contains c

/-- The length and the least number of a character that begins with the given byte, and the first bits
of its number. A character has one way to be written. -/
def leadByte? (b : Nat) : Option (Nat × Nat × Nat) :=
  if b < 0x80 then some (1, 0, b)
  else if 0xc0 ≤ b && b < 0xe0 then some (2, 0x80, b - 0xc0)
  else if 0xe0 ≤ b && b < 0xf0 then some (3, 0x800, b - 0xe0)
  else if 0xf0 ≤ b && b < 0xf8 then some (4, 0x10000, b - 0xf0)
  else none

/-- The bytes of `count` escapes, each a percent sign and two hexadecimal digits. -/
def escapedBytes? : Nat → List Char → Option (List Nat × List Char)
  | 0, rest => some ([], rest)
  | count + 1, '%' :: a :: b :: rest => do
    let byte := (← Numeral.hexDigit? a) * 16 + (← Numeral.hexDigit? b)
    let (bytes, rest) ← escapedBytes? count rest
    return (byte :: bytes, rest)
  | _ + 1, _ => none

/-- The character behind the escapes of its bytes, and the text behind them. -/
def escapedChar? (cs : List Char) : Option (Char × List Char) := do
  let (first, _) ← escapedBytes? 1 cs
  let (count, least, start) ← leadByte? (first.headD 0)
  let (bytes, rest) ← escapedBytes? count cs
  let isTail (b : Nat) : Bool := 0x80 ≤ b && b < 0xc0
  let n := bytes.tail.foldl (fun n b => n * 0x40 + (b - 0x80)) start
  if bytes.tail.all isTail && least ≤ n && Nat.isValidChar n then return (Char.ofNat n, rest) else none

/-- The text of a tag behind its first character; at most `fuel` characters. -/
def tagTail? : Nat → List Char → Option (List Char)
  | _, [] => some []
  | 0, _ => none
  | fuel + 1, c :: rest =>
    if c == '%' then do
      let (c, rest) ← escapedChar? (c :: rest)
      return c :: (← tagTail? fuel rest)
    else if isTagChar c then (tagTail? fuel rest).map (c :: ·)
    else none

/-- The text of a tag. -/
def tagText? (cs : List Char) : Option String :=
  (tagTail? cs.length cs).map String.ofList

/-- The text that a handle stands for. Its first unit may be any but a flow mark. -/
def handleText? : List Char → Option String
  | [] => none
  | c :: rest =>
    if isFlowMark c then none
    else if c == '%' || isTagChar c then tagText? (c :: rest)
    else if unitsOfChar c ≠ 1 then none
    else (tagTail? rest.length rest).map fun tail => String.ofList (c :: tail)

def isHandleChar (c : Char) : Bool :=
  c.isAlphanum || c == '-'

/-- Splits the part of a tag behind its first mark into handle and suffix. -/
def splitTag (cs : List Char) : Option (String × List Char) :=
  match cs with
  | '!' :: suffix => if suffix.contains '!' then none else some ("!!", suffix)
  | cs =>
    match cs.span (· ≠ '!') with
    | (suffix, []) => some ("!", suffix)
    | (name, _ :: suffix) =>
      if suffix.contains '!' || name.isEmpty || !name.all isHandleChar then none
      else some ("!" ++ String.ofList name ++ "!", suffix)

/-- Reads a tag behind its first mark and gives it in full. -/
def readTag : Reader String := do
  match ← Reader.rest with
  | '<' :: _ =>
    let (body, s) := (← Reader.spot).next.passWhile (· ≠ '>')
    match s.rest with
    | [] => Reader.malformed
    | _ :: _ =>
      match tagText? body with
      | none => Reader.malformed
      | some tag =>
        Reader.moveTo s.next
        return tag
  | _ =>
    let (body, s) := (← Reader.spot).passWhile (!isSpace ·)
    match splitTag body with
    | none => Reader.malformed
    | some (handle, suffix) =>
      match if suffix.any isFlowMark then none else tagText? suffix with
      | none => Reader.malformed
      | some name =>
        Reader.moveTo s
        match Entries.get? (← get).handles handle with
        | some start => return start ++ name
        | none =>
          if handle = "!" then return "!" ++ name
          else if handle = "!!" then return coreTag name
          else Reader.malformed

/-! ## Tag and anchor of a node -/

/-- How the indentation of a line compares with that of the parent. -/
def compareIndent (indent : Nat) (parent : Int) : Ordering :=
  compare (indent : Int) parent

/-- What is known before the content of a node. -/
structure Lead where
  tag : Option String := none
  anchor : Option String := none
  /-- Where tag and anchor begin, if there are any. -/
  start : Option Spot := none
  /-- Whether the node begins a line. -/
  newLine : Bool := false
  /-- The node's indentation against its parent's. -/
  order : Ordering := .gt
  /-- Whether collections by indentation may follow. -/
  collections : Bool

namespace Lead

/-- The same place without tag and anchor. -/
def bare (lead : Lead) : Lead :=
  { lead with tag := none, anchor := none }

/-- Passes over separation behind a tag or anchor. -/
def separate (lead : Lead) (parent : Int) (blocks : Bool) : Reader Lead := do
  let breaks ← Reader.skip
  if breaks = 0 then return { lead with collections := false }
  else
    let order := compareIndent (← Reader.spot).indent parent
    return { lead with newLine := true, order, collections := blocks }

/-- Reads tag and anchor in any order, each at most once. On a new line, a second tag or anchor belongs to
the first key of a mapping. -/
def read (parent : Int) (blocks : Bool) : Nat → Lead → Reader Lead
  | 0, lead => return lead
  | fuel + 1, lead => do
    let s ← Reader.spot
    let start := some (lead.start.getD s)
    match s.rest with
    | '!' :: _ =>
      if lead.tag.isSome then
        if lead.newLine then return lead else Reader.malformed
      else
        Reader.next
        let tag ← readTag
        let lead ← separate { lead with tag := some tag, start } parent blocks
        read parent blocks fuel lead
    | '&' :: _ =>
      if lead.anchor.isSome then
        if lead.newLine then return lead else Reader.malformed
      else
        Reader.next
        let name ← readName
        let lead ← separate { lead with anchor := some name, start } parent blocks
        read parent blocks fuel lead
    | _ => return lead

end Lead

end ProbeAtlas.Yaml
