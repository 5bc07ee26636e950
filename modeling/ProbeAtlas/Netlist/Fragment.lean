import ProbeAtlas.Fault
import ProbeAtlas.Text.Units

/-!
# ProbeAtlas — signal fragments

A signal is a list of fragments, most significant first. A fragment is a run of constant bits or a
slice of one wire. Positions in a wire count from its least significant bit; wires that are declared
most significant bit first print their positions reflected.
-/

namespace ProbeAtlas

/-- `width` neighbouring bits of a wire, from position `offset` on. -/
structure Slice where
  wire : String
  wireWidth : Nat
  width : Nat
  offset : Nat
  msbFirst : Bool
deriving DecidableEq, Repr

/-- A part of a signal. Constant bits are held most significant first, as they are printed. -/
inductive Fragment where
  | constant (bits : List Char)
  | slice (s : Slice)
deriving DecidableEq, Repr

namespace Slice

/-- The index by which a position is printed. -/
def index (s : Slice) (position : Nat) : Int :=
  if s.msbFirst then (s.wireWidth : Int) - 1 - position else position

/-- The last position of the slice. -/
def last (s : Slice) : Nat :=
  s.offset + s.width - 1

/-- The printed range, most significant index first. -/
def range (s : Slice) : String :=
  if s.width = 1 then s!"[{s.index s.offset}]"
  else s!"[{s.index s.last}:{s.index s.offset}]"

/-- Whether the slice is the whole wire. -/
def isWhole (s : Slice) : Bool :=
  s.width == s.wireWidth && s.offset == 0

/-- The name of the slice: the wire, with the range unless the slice is the whole wire. -/
def fullName (s : Slice) : String :=
  if s.isWhole then s.wire else s!"{s.wire} {s.range}"

/-- Whether a short name needs a range; the whole of a one-bit wire does not. -/
def showsIndex (s : Slice) : Bool :=
  !(s.isWhole && s.width == 1)

end Slice

/-- The last level of a name, without the backslash of an escaped name. -/
def shortName (name : String) : String :=
  match (name.toList.reverse.takeWhile (· ≠ '.')).reverse with
  | '\\' :: rest => String.ofList rest
  | cs => String.ofList cs

namespace Fragment

/-- A constant of at least one bit. -/
def ofBits (bits : String) : Except Fault Fragment :=
  if bits.isEmpty then .error .emptyConstant else .ok (.constant bits.toList)

/-- A slice of at least one bit. -/
def ofSlice (wire : String) (wireWidth : Nat) (width : Int) (offset : Nat) (msbFirst : Bool) :
    Except Fault Fragment :=
  if width ≤ 0 then .error (.emptySlice wire)
  else .ok (.slice ⟨wire, wireWidth, width.toNat, offset, msbFirst⟩)

/-- How many bits a fragment carries. -/
def width : Fragment → Nat
  | .constant bits => units16 bits
  | .slice s => s.width

def offset : Fragment → Nat
  | .constant _ => 0
  | .slice s => s.offset

/-- A constant as it is printed, behind its width. -/
def constantName (bits : List Char) : String :=
  toString (units16 bits) ++ String.ofList (Literal.tick :: bits)

/-- The name of a fragment with its full path. -/
def fullName : Fragment → String
  | .constant bits => constantName bits
  | .slice s => s.fullName

/-- The name of a fragment without path and range. -/
def name : Fragment → String
  | .constant bits => constantName bits
  | .slice s => shortName s.wire

def showsIndex : Fragment → Bool
  | .constant _ => false
  | .slice s => s.showsIndex

/-- The name under which a probe's signal is reported. -/
def signalName : Fragment → String
  | .constant bits => constantName bits
  | .slice s => if s.showsIndex then shortName s.wire ++ s.range else shortName s.wire

/-- How many bits a list of fragments carries. -/
def totalWidth (fragments : List Fragment) : Nat :=
  (fragments.map width).foldr (· + ·) 0

/-- A signal as one text; several fragments stand in braces. -/
def joinNames : List Fragment → String
  | [f] => f.fullName
  | fragments => "\x7b " ++ " ".intercalate (fragments.map fullName) ++ " \x7d"

end Fragment

end ProbeAtlas
