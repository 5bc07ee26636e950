import ProbeAtlas.Netlist.Design

/-!
# ProbeAtlas — inlining one cell

Replacing a cell by the contents of its module renames nets: a net that is a bit of a port becomes the
bit connected to it, any other net becomes a fresh one. A port bit without a connected bit, because
the port is unconnected or the connection is short, gets a fresh net as well. Constants stay.

The renaming is fixed net by net, ports first, then net names, then cells, each in its own order; the
first decision about a net stands. An unconnected port with a reserved name reserves its first nets: no
later port binds them, and they get a fresh net only when they are used.
-/

namespace ProbeAtlas

/-- Port names that are reserved, and how many bits of an unconnected port each of them reserves.

They are the names of the functions that every object inherits. The connections of a cell are looked up
in an object by port name, so under such a name a function is found where nothing is connected. It counts
as a list of as many bits as the function has parameters, with nothing in it. Inherited functions without
parameters reserve nothing and are left out. -/
def reservedPorts : List (String × Nat) :=
  [("constructor", 1), ("hasOwnProperty", 1), ("isPrototypeOf", 1), ("propertyIsEnumerable", 1),
    ("__lookupGetter__", 1), ("__lookupSetter__", 1), ("__defineGetter__", 2), ("__defineSetter__", 2)]

/-- The bits outside a port, given the connections of the cell; `none` stands for a reserved bit. -/
def outerBits (connections : List (String × List Bit)) (port : String) : List (Option Bit) :=
  match Entries.get? connections port with
  | some bits => bits.map some
  | none => List.replicate ((reservedPorts.lookup port).getD 0) none

/-- The decisions about nets so far, latest first, and the last net number in use. A net without a bit
is reserved. -/
structure Renaming where
  known : List (Nat × Option Bit)
  counter : Nat
deriving DecidableEq, Repr

namespace Renaming

/-- Whether there is a decision about the net. -/
def isKnown (r : Renaming) (id : Nat) : Bool :=
  (r.known.lookup id).isSome

/-- What the net becomes, if that is decided. -/
def get? (r : Renaming) (id : Nat) : Option Bit :=
  (r.known.lookup id).join

/-- Decides that the net becomes the given bit, or reserves it. -/
def set (r : Renaming) (id : Nat) (b : Option Bit) : Renaming :=
  { r with known := (id, b) :: r.known }

/-- Decides that the net becomes a fresh one. -/
def setFresh (r : Renaming) (id : Nat) : Renaming :=
  { known := (id, some (.net (nextNet r.counter))) :: r.known, counter := nextNet r.counter }

/-- Decides about a port bit by bit: `inner` are its bits inside the module, `outer` those outside. -/
def bindPort (r : Renaming) : List Bit → List (Option Bit) → Renaming
  | [], _ => r
  | .const _ :: inner, outer => bindPort r inner outer.tail
  | .net id :: inner, outer =>
    if r.isKnown id then bindPort r inner outer.tail
    else
      match outer with
      | b :: rest => bindPort (r.set id b) inner rest
      | [] => bindPort (r.setFresh id) inner []

/-- Decides about all ports of a module that is instantiated with the given connections. -/
def bindPorts (r : Renaming) (connections : List (String × List Bit)) : List (String × Port) → Renaming
  | [] => r
  | (name, port) :: ports =>
    bindPorts (r.bindPort port.bits (outerBits connections name)) connections ports

/-- The new bit of a bit. -/
def bit (r : Renaming) : Bit → Bit × Renaming
  | .const level => (.const level, r)
  | .net id =>
    match r.get? id with
    | some b => (b, r)
    | none => (.net (nextNet r.counter), r.setFresh id)

def bits (r : Renaming) : List Bit → List Bit × Renaming
  | [] => ([], r)
  | b :: bs =>
    let (b', r) := r.bit b
    let (bs', r) := r.bits bs
    (b' :: bs', r)

/-- Net names move under the name of the cell. -/
def netnames (r : Renaming) (cell : String) : List NetName → List NetName × Renaming
  | [] => ([], r)
  | n :: ns =>
    let (bits, r) := r.bits n.bits
    let (ns', r) := r.netnames cell ns
    ({ n with name := cell ++ "." ++ n.name, bits } :: ns', r)

/-- Connections keep their ports. An object would lose the one called `__proto__` when it is copied. A
design that is read from a text has no such port, because its objects keep no entry under that key. -/
def connections (r : Renaming) : List (String × List Bit) → List (String × List Bit) × Renaming
  | [] => ([], r)
  | (port, bits) :: rest =>
    let (bits, r) := r.bits bits
    let (rest, r) := r.connections rest
    ((port, bits) :: rest, r)

/-- Cells move under the name of the cell as well. -/
def cells (r : Renaming) (cell : String) : List Cell → List Cell × Renaming
  | [] => ([], r)
  | c :: cs =>
    let (connections, r) := r.connections c.connections
    let (cs', r) := r.cells cell cs
    (⟨cell ++ "." ++ c.name, c.type, connections⟩ :: cs', r)

end Renaming

/-- What takes the place of a cell. -/
structure Inlined where
  netnames : List NetName
  cells : List Cell
  counter : Nat
deriving DecidableEq, Repr

/-- The contents of `child` in place of `cell`; net numbers up to `counter` are in use. -/
def inlineCell (cell : Cell) (child : Module) (counter : Nat) : Inlined :=
  let r := Renaming.bindPorts ⟨[], counter⟩ cell.connections child.ports
  let (netnames, r) := r.netnames cell.name child.netnames
  let (cells, r) := r.cells cell.name child.cells
  ⟨netnames, cells, r.counter⟩

end ProbeAtlas
