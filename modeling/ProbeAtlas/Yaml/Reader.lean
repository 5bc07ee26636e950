import ProbeAtlas.Yaml.Graph
import ProbeAtlas.Yaml.Spot

/-!
# ProbeAtlas — readers of YAML

A reader moves along the text, adds collections to the graph and remembers the nodes behind anchors. It
ends with an error if the text is malformed or a tag cannot be applied. Nodes are nested only so deep.
-/

namespace ProbeAtlas.Yaml

/-- How far reading has come. -/
structure State where
  spot : Spot
  graph : Graph
  /-- The nodes behind anchors. -/
  anchors : List (String × Item)
  /-- The beginnings of tags behind tag handles. -/
  handles : List (String × String)
  /-- How many nodes are being read, each inside the one before. -/
  depth : Nat
  /-- How much has been merged into mappings. -/
  merged : Nat

/-- Reading from the start of a text. -/
def State.start (s : Spot) : State :=
  ⟨s, .empty, [], [], 0, 0⟩

/-- Why a text cannot be loaded. -/
inductive LoadError where
  /-- The text breaks a rule of the language. -/
  | malformed
  /-- A tag stands in front of a value that has been read already and is no text any more. -/
  | mistyped
deriving DecidableEq, Repr

abbrev Reader (α : Type) := StateT State (Except LoadError) α

namespace Reader

/-- Gives up on a malformed text. -/
def malformed {α : Type} : Reader α :=
  throw .malformed

/-- A budget for the nodes of a text. -/
def budget (text : List Char) : Nat :=
  8 * text.length + 64

/-! ## The text -/

def spot : Reader Spot := do
  return (← get).spot

def moveTo (s : Spot) : Reader Unit :=
  modify fun state => { state with spot := s }

/-- Passes over separation with comments; counts the line breaks. -/
def skip : Reader Nat := do
  let (breaks, s) := (← spot).skip true
  moveTo s
  return breaks

/-- Passes over one character. -/
def next : Reader Unit := do
  moveTo (← spot).next

/-- The unread text. -/
def rest : Reader (List Char) := do
  return (← spot).rest

/-- Runs a reader of spots that may find nothing. -/
def scan {α : Type} (f : Spot → Option (Option α × Spot)) : Reader (Option α) := do
  match f (← spot) with
  | none => malformed
  | some (found, s) =>
    moveTo s
    return found

/-! ## Nodes -/

/-- How many nodes may be nested. -/
def maxDepth : Nat := 100

/-- Reads inside one more node. -/
def nested {α : Type} (read : Reader α) : Reader α := do
  let depth := (← get).depth
  if depth < maxDepth then
    modify fun state => { state with depth := depth + 1 }
    let a ← read
    modify fun state => { state with depth := depth }
    return a
  else malformed

/-- Gives a node its name, if there is one. -/
def define (anchor : Option String) (item : Item) : Reader Unit :=
  match anchor with
  | none => return
  | some name => modify fun state => { state with anchors := Entries.put name item state.anchors }

/-- Adds a collection to the graph. -/
def add (c : Collection) : Reader Nat := do
  let state ← get
  let (id, graph) := state.graph.add c
  set { state with graph }
  return id

/-- Replaces the content of a collection. -/
def update (id : Nat) (c : Collection) : Reader Unit :=
  modify fun state => { state with graph := state.graph.set id c }

/-- Begins a sequence behind an anchor. -/
def openSequence (anchor : Option String) : Reader Nat := do
  let id ← add (.sequence [])
  define anchor (.collection id)
  return id

/-- Adds an item at the end of a sequence. -/
def append (id : Nat) (item : Item) : Reader Unit := do
  let items := ((← get).graph.items? (.collection id)).getD []
  update id (.sequence (items ++ [item]))

end Reader

end ProbeAtlas.Yaml
