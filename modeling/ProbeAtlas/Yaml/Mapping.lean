import ProbeAtlas.Yaml.Reader
import ProbeAtlas.Yaml.Scalar

/-!
# ProbeAtlas — the entries of a YAML mapping

Keys are texts and each is set once. A merge key stands for the entries of other mappings: it adds those
whose keys are not there yet, and an entry that came this way may still be set. A sequence and bytes
are merged like mappings with their positions as keys. How much a text merges is limited.
-/

namespace ProbeAtlas.Yaml

/-- A mapping that is being read: its number, and the keys that came from a merge and may be set again. -/
structure Mapping where
  id : Nat
  merged : List String

namespace Mapping

/-- Begins a mapping behind an anchor. -/
def start (anchor : Option String) : Reader Mapping := do
  let id ← Reader.add (.mapping [])
  Reader.define anchor (.collection id)
  return ⟨id, []⟩

def item (m : Mapping) : Item :=
  .collection m.id

/-- The entries so far. -/
def entries (m : Mapping) : Reader (List (String × Item)) := do
  return ((← get).graph.entries? m.item).getD []

/-- Sets an entry. -/
def put (m : Mapping) (key : String) (value : Item) : Reader Unit := do
  Reader.update m.id (.mapping (Entries.put key value (← m.entries)))

/-! ## Merging -/

/-- How many mappings one key may merge. -/
def maxSources : Nat := 100

/-- How much may be merged in one text: every source counts, and every key of it. -/
def maxMerged : Nat := 10000

/-- The entries of a node that can be merged. -/
def sourceEntries? (g : Graph) : Item → Option (List (String × Item))
  | .instant _ => some []
  | .bytes values => some (Graph.indexed (Graph.itemsOfBytes values))
  | .collection id =>
    match g.collections[id]? with
    | some (.sequence items) => some (Graph.indexed items)
    | some (.mapping entries) => some entries
    | none => none
  | _ => none

/-- Adds entries whose keys are not there yet. -/
def addMissing (m : Mapping) : List (String × Item) → Reader Mapping
  | [] => return m
  | (key, value) :: rest => do
    if (Entries.get? (← m.entries) key).isSome then m.addMissing rest
    else
      m.put key value
      { m with merged := key :: m.merged }.addMissing rest

/-- Merges a node. -/
def merge (m : Mapping) (source : Item) : Reader Mapping := do
  let state ← get
  match sourceEntries? state.graph source with
  | none => Reader.malformed
  | some entries =>
    let merged := state.merged + entries.length + 1
    if maxMerged < merged then Reader.malformed
    else
      set { state with merged }
      m.addMissing entries

/-- Merges one node after another. -/
def mergeAll (m : Mapping) : List Item → Reader Mapping
  | [] => return m
  | source :: rest => do
    let m ← m.merge source
    m.mergeAll rest

/-! ## Setting -/

/-- Adds an entry. A key may be set once, and a merge adds the entries of its values instead. -/
def store (m : Mapping) (keyTag : Option String) (key value : Item) : Reader Mapping := do
  let g := (← get).graph
  match g.keyText? key with
  | none => Reader.malformed
  | some text =>
    if keyTag = some mergeTag then
      match g.items? value with
      | none => m.merge value
      | some sources => if maxSources < sources.length then Reader.malformed else m.mergeAll sources
    else if (Entries.get? (← m.entries) text).isSome && !m.merged.contains text then Reader.malformed
    else
      m.put text value
      return { m with merged := m.merged.filter (· ≠ text) }

end Mapping

end ProbeAtlas.Yaml
