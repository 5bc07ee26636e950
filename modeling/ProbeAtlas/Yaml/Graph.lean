import ProbeAtlas.Number.Shortest
import ProbeAtlas.Value.Basic
import ProbeAtlas.Yaml.Instant

/-!
# ProbeAtlas — the graph behind a YAML text

An anchor names a node, and an alias is that very node: it may stand inside the collection that it
names. So collections are kept in a graph and referred to by number, and what a node stands for is a
scalar or such a number. `Graph.view` unfolds a node into a tree down to a given depth.
-/

namespace ProbeAtlas.Yaml

/-- What a node stands for: a scalar, or a collection by its number. -/
inductive Item where
  | null
  | bool (b : Bool)
  | number (n : Number)
  | text (s : String)
  | instant (t : Instant)
  | bytes (values : List Nat)
  | collection (id : Nat)
deriving DecidableEq, Repr

/-- The content of a collection. -/
inductive Collection where
  | sequence (items : List Item)
  | mapping (entries : List (String × Item))
deriving DecidableEq, Repr

/-- The collections of a text by number, as far as they have been read. -/
structure Graph where
  collections : Array Collection
deriving DecidableEq, Repr

namespace Item

/-- The values of bytes, with commas between them. -/
def bytesText (values : List Nat) : String :=
  ",".intercalate (values.map fun n => toString n)

end Item

namespace Graph

def empty : Graph := ⟨#[]⟩

/-- Adds a collection and gives its number. -/
def add (g : Graph) (c : Collection) : Nat × Graph :=
  (g.collections.size, ⟨g.collections.push c⟩)

/-- Replaces the content of a collection. -/
def set (g : Graph) (id : Nat) (c : Collection) : Graph :=
  ⟨g.collections.setIfInBounds id c⟩

/-- The collection that an item is. -/
def collection? (g : Graph) : Item → Option Collection
  | .collection id => g.collections[id]?
  | _ => none

/-- The items of a sequence. -/
def items? (g : Graph) (item : Item) : Option (List Item) :=
  match g.collection? item with
  | some (.sequence items) => some items
  | _ => none

/-- The entries of a mapping. -/
def entries? (g : Graph) (item : Item) : Option (List (String × Item)) :=
  match g.collection? item with
  | some (.mapping entries) => some entries
  | _ => none

/-- Entries with the positions of the items as keys. -/
def indexed (items : List Item) : List (String × Item) :=
  items.zipIdx.map fun (item, i) => (toString i, item)

def itemsOfBytes (values : List Nat) : List Item :=
  values.map fun n => .number (.ofNat n)

/-! ## Texts of keys -/

/-- How every mapping is written as a key. -/
def mappingText : String := "[object Object]"

/-- The text of an item inside a key; a sequence has none. -/
def itemText? (g : Graph) : Item → Option String
  | .null => some ""
  | .bool b => some (if b then "true" else "false")
  | .number n => some n.text
  | .text s => some s
  | .instant t => some t.text
  | .bytes values => some (Item.bytesText values)
  | .collection id =>
    match g.collections[id]? with
    | some (.mapping _) => some mappingText
    | _ => none

/-- The text that a node stands for as a key, `none` for nested sequences. -/
def keyText? (g : Graph) (item : Item) : Option String :=
  match item with
  | .null => some "null"
  | item =>
    match g.items? item with
    | some items => (items.mapM g.itemText?).map fun texts => ",".intercalate texts
    | none => g.itemText? item

/-! ## Trees -/

/-- The tree below an item. Collections that are nested deeper than `depth` are shown without content. -/
def view (g : Graph) : Nat → Item → Value
  | _, .null => .null
  | _, .bool b => .bool b
  | _, .number n => .number n
  | _, .text s => .string s
  | _, .instant t => .date t.text
  | _, .bytes values => .object (values.zipIdx.map fun (n, i) => (toString i, .ofNat n))
  | 0, .collection id =>
    match g.collections[id]? with
    | some (.sequence _) => .array []
    | _ => .object []
  | depth + 1, .collection id =>
    match g.collections[id]? with
    | some (.sequence items) => .array (items.map (g.view depth))
    | some (.mapping entries) =>
      .object ((Entries.ordered entries).map fun (key, item) => (key, g.view depth item))
    | none => .null

end Graph

end ProbeAtlas.Yaml
