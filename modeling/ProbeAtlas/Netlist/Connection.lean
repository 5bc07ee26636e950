import ProbeAtlas.Netlist.Design
import ProbeAtlas.Netlist.Fragment

/-!
# ProbeAtlas — naming the bits of a connection

A net may have several names in a module. Public names are preferred to hidden ones, then names of
fewer levels, then earlier ones. The names are collected by running through the net names and the
positions of each of them; a net keeps its name until one of lower rank comes.

A connection is read as fragments by running through its bits from the least significant one:
neighbouring constants make one fragment, and so do neighbouring bits of one wire in ascending order.
-/

namespace ProbeAtlas

/-- The number of dot-separated levels of a name. -/
def levelsOf (name : String) : Nat :=
  name.toList.count '.' + 1

/-- What a hidden name is set back by. -/
def hiddenPenalty : Nat := 1000

/-- Names of lower rank are preferred. -/
def NetName.rank (n : NetName) : Nat :=
  (if n.hidden then hiddenPenalty else 0) + levelsOf n.name

/-- A bit seen as a position of a named net. -/
structure NamedBit where
  net : NetName
  position : Nat
deriving DecidableEq, Repr

/-- The names that nets have been given, latest first. -/
structure BitNames where
  entries : List (Nat × NamedBit)
deriving DecidableEq, Repr

namespace BitNames

/-- The name of a net. -/
def get? (names : BitNames) (id : Nat) : Option NamedBit :=
  names.entries.lookup id

def set (names : BitNames) (id : Nat) (b : NamedBit) : BitNames :=
  ⟨(id, b) :: names.entries⟩

/-- Names a net, unless it has a name that is no worse. -/
def offer (names : BitNames) (id : Nat) (b : NamedBit) : BitNames :=
  match names.get? id with
  | none => names.set id b
  | some best => if b.net.rank < best.net.rank then names.set id b else names

/-- Names the nets that stand in `n`, of whose bits those from the given position on are left. -/
def offerBits (n : NetName) : BitNames → Nat → List Bit → BitNames
  | names, _, [] => names
  | names, i, .const _ :: bits => offerBits n names (i + 1) bits
  | names, i, .net id :: bits => offerBits n (names.offer id ⟨n, i⟩) (i + 1) bits

/-- Names the nets of all net names, in order. -/
def offerAll (names : BitNames) (ns : List NetName) : BitNames :=
  ns.foldl (fun names n => names.offerBits n 0 n.bits) names

end BitNames

namespace Module

/-- The preferred names of all nets. -/
def bitNames (m : Module) : BitNames :=
  BitNames.offerAll ⟨[]⟩ m.netnames

/-- The preferred name of a net. -/
def nameOf? (m : Module) (id : Nat) : Option NamedBit :=
  m.bitNames.get? id

/-- The wire that stands for a net without a name. -/
def anonymous (id : Nat) : Slice :=
  ⟨"$" ++ netText id, 1, 1, 0, false⟩

/-- The one-bit slice at a named bit. -/
def sliceAt (b : NamedBit) : Slice :=
  ⟨b.net.name, b.net.bits.length, 1, b.position, b.net.upto⟩

/-- Whether a named bit continues a slice upwards. -/
def continues (s : Slice) (b : NamedBit) : Bool :=
  s.wire == b.net.name && s.offset + s.width == b.position

/-- Adds the next more significant bit in front of the fragments below it. -/
def addBit (names : BitNames) (fragments : List Fragment) : Bit → List Fragment
  | .const level =>
    match fragments with
    | .constant bits :: rest => .constant (level.char :: bits) :: rest
    | _ => .constant [level.char] :: fragments
  | .net id =>
    match names.get? id with
    | none => .slice (anonymous id) :: fragments
    | some b =>
      match fragments with
      | .slice s :: rest =>
        if continues s b then .slice { s with width := s.width + 1 } :: rest
        else .slice (sliceAt b) :: fragments
      | _ => .slice (sliceAt b) :: fragments

/-- The fragments of a connection, most significant first. -/
def fragments (m : Module) (bits : List Bit) : List Fragment :=
  bits.foldl (addBit m.bitNames) []

end Module

end ProbeAtlas
