import ProbeAtlas.Yaml.Block
import ProbeAtlas.Yaml.Flow
import ProbeAtlas.Yaml.Property

/-!
# ProbeAtlas — nodes of a YAML text

A node is a scalar, a sequence, a mapping or an alias, possibly behind a tag and an anchor. Sequences
and mappings are written with brackets or by indentation. Which forms may stand at a spot depends on
the context, on the indentation of the parent, and on whether the node begins a line.

Readers of nested nodes take a budget. `Reader.budget` of the text is never used up: at most eight
readers are entered before a character is passed over.
-/

namespace ProbeAtlas.Yaml

/-! ## Tags and content -/

/-- The kinds of nodes. -/
inductive Kind where
  | scalar
  | sequence
  | mapping
deriving DecidableEq, Repr

/-- A node: what it stands for, its tag once resolved, its kind, and whether there was anything to read. -/
structure Node where
  item : Item
  tag : Option String
  kind : Option Kind
  present : Bool

/-- Where a node stands. -/
inductive Context where
  /-- Inside brackets. -/
  | flowIn
  /-- A key of a mapping by indentation. -/
  | flowOut
  /-- An item of a sequence by indentation. -/
  | blockIn
  /-- A value of a mapping by indentation, or the root. -/
  | blockOut
deriving DecidableEq, Repr

def Context.isBlock : Context → Bool
  | .blockIn => true
  | .blockOut => true
  | _ => false

/-- The content of a node before its tag is looked at. -/
inductive Content where
  | nothing
  | scalar (text : String)
  | plain (text : String)
  | collection (kind : Kind) (item : Item)
  /-- The node that was read as a key and turned out not to be one. -/
  | node (n : Node)
  | alias (item : Item)

/-- The kind of node that a known tag stands in front of. -/
def kindOfTag? (tag : String) : Option Kind :=
  if tag ∈ ["str", "null", "bool", "int", "float", "timestamp", "merge", "binary"].map coreTag then
    some .scalar
  else if tag ∈ ["seq", "omap", "pairs"].map coreTag then some .sequence
  else if tag ∈ ["map", "set"].map coreTag then some .mapping
  else none

/-- What a tag makes of nothing. -/
def resolveNothing (tag : String) : Reader Item := do
  if tag = coreTag "str" then return .text ""
  else if tag = coreTag "null" || tag = mergeTag then return .null
  else if kindOfTag? tag = some .sequence then return .collection (← Reader.add (.sequence []))
  else if kindOfTag? tag = some .mapping then return .collection (← Reader.add (.mapping []))
  else Reader.malformed

/-- The keys of mappings with one entry each. -/
def onlyEntries? (g : Graph) (items : List Item) : Option (List (String × Item)) :=
  items.mapM fun item =>
    match g.entries? item with
    | some [entry] => some entry
    | _ => none

/-- Adds a sequence of a key and a value for each entry. -/
def addPairs : List (String × Item) → Reader (List Item)
  | [] => return []
  | (key, value) :: rest => do
    let id ← Reader.add (.sequence [.text key, value])
    return .collection id :: (← addPairs rest)

/-- What a tag makes of a collection of its kind. -/
def resolveCollection (tag : String) (item : Item) : Reader Item := do
  let g := (← get).graph
  if tag = coreTag "omap" then
    match onlyEntries? g ((g.items? item).getD []) with
    | none => Reader.malformed
    | some entries =>
      let keys := entries.map Prod.fst
      if keys.eraseDups.length = keys.length then return item else Reader.malformed
  else if tag = coreTag "pairs" then
    match onlyEntries? g ((g.items? item).getD []) with
    | none => Reader.malformed
    | some entries => return .collection (← Reader.add (.sequence (← addPairs entries)))
  else if tag = coreTag "set" then
    if ((g.entries? item).getD []).all fun entry => entry.2 = .null then return item else Reader.malformed
  else return item

/-- What a node with a known tag stands for. The node has to be of the tag's type; one without content has
no kind. -/
def resolveTagged (tag : String) (kind : Option Kind) (item : Item) : Reader Item := do
  match kind with
  | none => if item = .null then resolveNothing tag else Reader.malformed
  | some kind =>
    if kindOfTag? tag ≠ some kind then Reader.malformed
    else if kind ≠ .scalar then resolveCollection tag item
    else if item = .null then resolveNothing tag
    else if tag = coreTag "str" then return item
    else
      match item with
      | .text s =>
        match resolveText? tag s with
        | none => Reader.malformed
        | some item => return item
      | item => if mistakes tag item then throw .mistyped else Reader.malformed

/-- The tag of a node and what it stands for. -/
def resolveNode (tag : Option String) (kind : Option Kind) (item : Item) :
    Reader (Option String × Item) := do
  match tag with
  | none => return (none, item)
  | some name =>
    if name = "!" then return (tag, item)
    else if name = openTag then
      match kind, item with
      | some .scalar, .text text =>
        let (name, item) := resolvePlain text
        return (some name, item)
      | some .scalar, item => if mistakes openTag item then throw .mistyped else return (tag, item)
      | none, .null => return (some (coreTag "null"), .null)
      | _, _ => Reader.malformed
    else return (tag, ← resolveTagged name kind item)

namespace Content

/-- The tag that counts for a content: a plain scalar without a tag is open to every type. -/
def tag (content : Content) (tag : Option String) : Option String :=
  match content with
  | .plain _ => some (tag.getD openTag)
  | _ => tag

/-- The kind of a content; nothing and an alias have none. -/
def kind : Content → Option Kind
  | .nothing => none
  | .scalar _ => some .scalar
  | .plain _ => some .scalar
  | .collection kind _ => some kind
  | .node n => n.kind
  | .alias _ => none

def item : Content → Item
  | .nothing => .null
  | .scalar text => .text text
  | .plain text => .text text
  | .collection _ item => item
  | .node n => n.item
  | .alias item => item

def isNothing : Content → Bool
  | .nothing => true
  | _ => false

def isNode : Content → Bool
  | .node _ => true
  | _ => false

def isAlias : Content → Bool
  | .alias _ => true
  | _ => false

end Content

/-- The node with the given content behind its tag and anchor. An alias has neither. Behind the tag that
stands for no type, an anchor names only what was `seen` at once. -/
def finishNode (lead : Lead) (content : Content) (seen : Bool) : Reader Node := do
  if content.isAlias && (lead.tag.isSome || lead.anchor.isSome) then Reader.malformed
  else
    let (tag, item) ← resolveNode (content.tag lead.tag) content.kind content.item
    if seen || tag ≠ some "!" then Reader.define lead.anchor item
    let present := tag.isSome || lead.anchor.isSome || !content.isNothing
    return { item, tag, kind := content.kind, present }

/-! ## Leaves -/

/-- Looks an alias up. -/
def readAlias : Reader Item := do
  let name ← readName
  match Entries.get? (← get).anchors name with
  | none => Reader.malformed
  | some item =>
    let _ ← Reader.skip
    return item

/-- Reads what is no collection by indentation and not in brackets. -/
def readLeaf (context : Context) (indent : Int) : Reader Content := do
  let block ← if context.isBlock then Reader.scan (block? indent.toNat) else pure none
  match block with
  | some text => return .scalar text
  | none =>
    match ← Reader.scan quoted? with
    | some text => return .scalar text
    | none =>
      match ← Reader.rest with
      | '*' :: _ =>
        Reader.next
        return .alias (← readAlias)
      | _ =>
        match ← Reader.scan (plain? (context = .flowIn) indent) with
        | some text => return .plain text
        | none => return .nothing

/-! ## Collections -/

/-- The result of trying to read a mapping by indentation. -/
inductive MappingAttempt where
  | none
  /-- No node could be read; tag and anchor count for nothing. -/
  | lost
  | mapping (item : Item)
  | kept (n : Node)

/-- A mapping by indentation as far as it has been read. -/
structure BlockMapping where
  mapping : Mapping
  /-- Whether an entry has been found. -/
  found : Bool
  /-- A key behind a question mark whose value is still to come. -/
  pending : Option (Option String × Item)

namespace BlockMapping

/-- Stores the pending key with no value. -/
def flush (b : BlockMapping) : Reader BlockMapping := do
  match b.pending with
  | none => return b
  | some (tag, key) => return { b with mapping := ← b.mapping.store tag key .null, pending := none }

/-- The mapping if an entry has been found, else the given result. -/
def finish (b : BlockMapping) (otherwise : MappingAttempt) : Reader MappingAttempt := do
  let b ← b.flush
  return if b.found then .mapping b.mapping.item else otherwise

end BlockMapping

/-- Passes over a comma behind an entry in brackets, if there is one. -/
def readComma : Reader Bool := do
  let _ ← Reader.skip
  if startsWith (· == ',') (← Reader.rest) then
    Reader.next
    return true
  else return false

mutual

/-- Reads a node below a parent of the given indentation. `seek` allows separation before it, `compact`
allows a collection by indentation to begin in the middle of a line. -/
def readNode : Nat → Int → Context → Bool → Bool → Reader Node
  | 0, _, _, _, _ => Reader.malformed
  | fuel + 1, parent, context, seek, compact => Reader.nested do
    let blocks := context.isBlock
    let breaks ← if seek then Reader.skip else pure 0
    let s ← Reader.spot
    let order := if breaks = 0 then .gt else compareIndent s.indent parent
    let lead : Lead := { newLine := breaks ≠ 0, order, collections := blocks }
    let lead ← if order = .gt then Lead.read parent blocks 4 lead else pure lead
    let collections := lead.collections && (lead.newLine || compact)
    let indent := if blocks then parent + 1 else parent
    if lead.order = .gt then
      let (lead, content) ← readContent fuel lead context indent collections
      finishNode lead content (!content.isNode)
    else if lead.order = .eq && context = .blockOut && collections then
      -- A sequence may stand at the indentation of the key it belongs to.
      match ← readBlockSequence fuel lead with
      | some item => finishNode lead (.collection .sequence item) true
      | none => finishNode lead .nothing false
    else finishNode lead .nothing false

/-- Reads the content of a node that is indented deeper than its parent. -/
def readContent : Nat → Lead → Context → Int → Bool → Reader (Lead × Content)
  | 0, _, _, _, _ => Reader.malformed
  | fuel + 1, lead, context, indent, collections => do
    let sequence ← if collections then readBlockSequence fuel lead else pure none
    match sequence with
    | some item => return (lead, .collection .sequence item)
    | none =>
      let attempt ← if collections then readBlockMapping fuel lead indent else pure .none
      match attempt with
      | .mapping item => return (lead, .collection .mapping item)
      | .kept n => return (lead, .node n)
      | .lost => readFlowOrLeaf fuel lead.bare context indent false
      | .none => readFlowOrLeaf fuel lead context indent (context.isBlock && !collections)

/-- Reads a collection in brackets, or else a leaf. With `keys`, tag and anchor may turn out to stand in
front of the first key of a mapping. -/
def readFlowOrLeaf : Nat → Lead → Context → Int → Bool → Reader (Lead × Content)
  | 0, _, _, _, _ => Reader.malformed
  | fuel + 1, lead, context, indent, keys => do
    match ← Reader.rest with
    | '[' :: _ =>
      let id ← Reader.openSequence lead.anchor
      Reader.next
      readFlowItems fuel indent true id
      return (lead, .collection .sequence (.collection id))
    | '\x7b' :: _ =>
      let m ← Mapping.start lead.anchor
      Reader.next
      readFlowEntries fuel indent true m
      return (lead, .collection .mapping m.item)
    | rest =>
      let isBlockScalar := startsWith (fun c => c == '|' || c == '>') rest
      let mapping ← if keys && !isBlockScalar then readLedMapping fuel lead indent else pure none
      match mapping with
      | some item => return (lead.bare, .collection .mapping item)
      | none => return (lead, ← readLeaf context indent)

/-- Reads a mapping by indentation that begins with the tag or anchor of its first key, if there is one. -/
def readLedMapping : Nat → Lead → Int → Reader (Option Item)
  | 0, _, _ => Reader.malformed
  | fuel + 1, lead, indent => do
    match lead.start with
    | none => return none
    | some start =>
      let before ← get
      Reader.moveTo start
      match ← readBlockMapping fuel lead.bare indent with
      | .mapping item => return some item
      | _ =>
        set before
        return none

/-- Reads one entry inside brackets: key, value, and whether it is a pair. -/
def readFlowEntry : Nat → Int → Reader (Node × Item × Bool)
  | 0, _ => Reader.malformed
  | fuel + 1, indent => do
    let explicit := match ← Reader.rest with
      | '?' :: rest => startsWith isSpace rest
      | _ => false
    if explicit then
      Reader.next
      let _ ← Reader.skip
    let line := (← Reader.spot).line
    let key ← readNode fuel indent .flowIn false true
    let _ ← Reader.skip
    let s ← Reader.spot
    if (explicit || s.line = line) && startsWith (· == ':') s.rest then
      Reader.next
      let _ ← Reader.skip
      let value ← readNode fuel indent .flowIn false true
      return (key, value.item, true)
    else return (key, .null, explicit)

/-- Reads the items of a sequence up to its bracket. -/
def readFlowItems : Nat → Int → Bool → Nat → Reader Unit
  | 0, _, _, _ => Reader.malformed
  | fuel + 1, indent, separated, id => do
    let _ ← Reader.skip
    match ← Reader.rest with
    | [] => Reader.malformed
    | ']' :: _ => Reader.next
    | c :: _ =>
      if !separated || c == ',' then Reader.malformed
      else
        let (key, value, isPair) ← readFlowEntry fuel indent
        if isPair then
          let m ← Mapping.start none
          let m ← m.store key.tag key.item value
          Reader.append id m.item
        else Reader.append id key.item
        let separated ← readComma
        readFlowItems fuel indent separated id

/-- Reads the entries of a mapping up to its brace. -/
def readFlowEntries : Nat → Int → Bool → Mapping → Reader Unit
  | 0, _, _, _ => Reader.malformed
  | fuel + 1, indent, separated, m => do
    let _ ← Reader.skip
    match ← Reader.rest with
    | [] => Reader.malformed
    | '\x7d' :: _ => Reader.next
    | c :: _ =>
      if !separated || c == ',' then Reader.malformed
      else
        let (key, value, _) ← readFlowEntry fuel indent
        let m ← m.store key.tag key.item value
        let separated ← readComma
        readFlowEntries fuel indent separated m

/-- Reads a sequence by indentation, if there is one. -/
def readBlockSequence : Nat → Lead → Reader (Option Item)
  | 0, _ => Reader.malformed
  | fuel + 1, lead => do
    let s ← Reader.spot
    if s.tab then return none
    else
      let id ← Reader.openSequence lead.anchor
      let found ← readBlockItems fuel s.column id false
      return if found then some (.collection id) else none

/-- Reads the items of a sequence that begins in the given column; gives whether there are any. -/
def readBlockItems : Nat → Nat → Nat → Bool → Reader Bool
  | 0, _, _, _ => Reader.malformed
  | fuel + 1, column, id, found => do
    let s ← Reader.spot
    match s.rest with
    | '-' :: rest =>
      if s.tab then Reader.malformed
      else if !startsWith isSpace rest then return found
      else
        Reader.next
        let breaks ← Reader.skip
        if breaks ≠ 0 && (← Reader.spot).indent ≤ column then
          Reader.append id .null
          readBlockItems fuel column id true
        else
          let line := (← Reader.spot).line
          let node ← readNode fuel column .blockIn false true
          Reader.append id node.item
          let _ ← Reader.skip
          let s ← Reader.spot
          if (s.line = line || column < s.indent) && !s.rest.isEmpty then Reader.malformed
          else if s.indent < column then return true
          else readBlockItems fuel column id true
    | rest => if s.tab && !rest.isEmpty then Reader.malformed else return found

/-- Tries to read a mapping by indentation whose keys are nodes below the given indentation. -/
def readBlockMapping : Nat → Lead → Int → Reader MappingAttempt
  | 0, _, _ => Reader.malformed
  | fuel + 1, lead, indent => do
    let s ← Reader.spot
    if s.tab then return .none
    else
      let m ← Mapping.start lead.anchor
      readBlockEntries fuel s.column indent ⟨m, false, none⟩

/-- Reads the entries of a mapping that begins in the given column. -/
def readBlockEntries : Nat → Nat → Int → BlockMapping → Reader MappingAttempt
  | 0, _, _, _ => Reader.malformed
  | fuel + 1, column, indent, b => do
    let s ← Reader.spot
    match s.rest with
    | [] => b.finish .none
    | c :: rest =>
      if b.pending.isNone && s.tab then Reader.malformed
      else if (c == '?' || c == ':') && startsWith isSpace rest then
        if c == '?' then
          let b ← b.flush
          Reader.next
          readEntryValue fuel column indent s.line { b with found := true } none true true
        else
          match b.pending with
          | none => Reader.malformed
          | some key =>
            Reader.next
            readEntryValue fuel column indent s.line { b with pending := none } (some key) false true
      else
        let key ← readNode fuel indent .flowOut false true
        if !key.present then b.finish .lost
        else
          let behind ← Reader.spot
          let colon := (behind.passWhile isWhite).2
          if behind.line = s.line && startsWith (· == ':') colon.rest then
            let behind := colon.next
            if !startsWith isSpace behind.rest then Reader.malformed
            else
              Reader.moveTo behind
              let b ← b.flush
              readEntryValue fuel column indent s.line { b with found := true }
                (some (key.tag, key.item)) false false
          else if b.found then Reader.malformed
          else
            if behind.line = s.line then Reader.moveTo colon
            return .kept key

/-- Reads what follows a key or a question mark and goes on with the next entry. `key` is the key whose
value follows; with `asKey` the node is itself a key. -/
def readEntryValue :
    Nat → Nat → Int → Nat → BlockMapping → Option (Option String × Item) → Bool → Bool →
      Reader MappingAttempt
  | 0, _, _, _, _, _, _, _ => Reader.malformed
  | fuel + 1, column, indent, line, b, key, asKey, compact => do
    let node ← readNode fuel column .blockOut true compact
    let b ←
      if asKey then pure { b with pending := some (none, node.item) }
      else
        match key with
        | none => pure b
        | some (tag, k) => pure { b with mapping := ← b.mapping.store tag k node.item }
    let _ ← Reader.skip
    let s ← Reader.spot
    if (s.line = line || column < s.indent) && !s.rest.isEmpty then Reader.malformed
    else if s.indent < column then b.finish .none
    else readBlockEntries fuel column indent b

end

end ProbeAtlas.Yaml
