import ProbeAtlas.Fault
import ProbeAtlas.Netlist.Inline

/-!
# ProbeAtlas — flattening

Flattening replaces cells of the top module by the contents of their modules until all cells left are
primitives or blackboxes. Other modules keep their contents.

The cells are taken level by level: the cells of the top itself, then those that inlining has put in,
and so on, always in order. Each cell's depth is remembered under its name. A hierarchy that is nested
deeper than the design has modules is recursive, and flattening stops there with what it has done so
far. A depth never lies below the cell's level, so the levels end.

A module cannot be copied into itself: what is copied would have to be copied again, without end. That
only arises when the top is instantiated below itself, and it has a finite result only if there is
nothing to copy.
-/

namespace ProbeAtlas

/-- The top module on the way to being flat. -/
structure Flat where
  /-- Cells that stay. -/
  kept : Array Cell
  /-- Cells of the next level. -/
  pending : Array Cell
  netnames : Array NetName
  /-- The last net number in use. -/
  counter : Nat
  /-- The depths of inlined cells under their names, latest first. -/
  depths : List (String × Nat)
deriving DecidableEq, Repr

namespace Flat

/-- All cells of the top, in order. -/
def cells (s : Flat) : List Cell :=
  s.kept.toList ++ s.pending.toList

/-- Whether the top has neither cells nor net names. -/
def isBare (s : Flat) : Bool :=
  s.kept.isEmpty && s.pending.isEmpty && s.netnames.isEmpty

/-- The depth at which the contents of a cell of this name will lie. -/
def depthOf (s : Flat) (cell : String) : Nat :=
  (s.depths.lookup cell).getD 0 + 1

/-- Puts the contents of `child` behind everything else. -/
def inline (s : Flat) (cell : Cell) (child : Module) : Flat :=
  let depth := s.depthOf cell.name
  let contents := inlineCell cell child s.counter
  { s with
    pending := s.pending ++ contents.cells
    netnames := s.netnames ++ contents.netnames
    counter := contents.counter
    depths := contents.cells.foldl (fun ds c => (c.name, depth) :: ds) s.depths }

end Flat

/-- A level that is not finished: the state reached, the cells not looked at, and why. -/
structure Stuck where
  state : Flat
  rest : List Cell
  impasse : Impasse Fault
deriving DecidableEq, Repr

namespace Design

/-- Takes the cells of one level in order, in a design whose top has the given name. -/
def flattenLevel (d : Design) (top : String) : List Cell → Flat → Except Stuck Flat
  | [], s => .ok s
  | c :: rest, s =>
    match d.expandable? c.type with
    | none => flattenLevel d top rest { s with kept := s.kept.push c }
    | some child =>
      if d.modules.length < s.depthOf c.name then .error ⟨s, c :: rest, .thrown (.recursive child.name)⟩
      else if child.name = top then
        if rest.isEmpty && s.isBare then .ok s else .error ⟨s, c :: rest, .endless child.name⟩
      else flattenLevel d top rest (s.inline c child)

/-- Takes level after level, at most `fuel` of them. -/
def flattenLevels (d : Design) (top : String) : Nat → Flat → Except Stuck Flat
  | 0, s => .ok s
  | fuel + 1, s =>
    if s.pending.isEmpty then .ok s
    else
      match flattenLevel d top s.pending.toList { s with pending := #[] } with
      | .error stuck => .error stuck
      | .ok s => flattenLevels d top fuel s

/-- The largest net number that a module uses, zero if it uses none. -/
def maxNet (m : Module) : Nat :=
  let ports := m.ports.flatMap fun p => netsOf p.2.bits
  let names := m.netnames.flatMap fun n => netsOf n.bits
  let cells := m.cells.flatMap fun c => c.connections.flatMap fun p => netsOf p.2
  (ports ++ names ++ cells).foldl max 0

/-- The top as flattening finds it. -/
def initialFlat (m : Module) : Flat :=
  { kept := #[]
    pending := m.cells.toArray
    netnames := m.netnames.toArray
    counter := maxNet m
    depths := [] }

/-- The design with a flattened top, or with what was done up to an impasse. -/
def flatten (d : Design) : Design × Option (Impasse Fault) :=
  match d.topModule? with
  | none => (d, some (.thrown .noTop))
  | some top =>
    let put (cells : List Cell) (s : Flat) : Design :=
      d.update top.name fun m => { m with cells, netnames := s.netnames.toList }
    match d.flattenLevels top.name (d.modules.length + 1) (initialFlat top) with
    | .ok s => ({ put s.cells s with flattened := true }, none)
    | .error stuck =>
      let s := stuck.state
      (put (s.kept.toList ++ stuck.rest ++ s.pending.toList) s, some stuck.impasse)

/-- Forgets the contents of a module: its cells, and the net names that are not ports. -/
def blackbox (d : Design) (name : String) : Except Fault Design :=
  match d.find? name with
  | none => .error (.unknownModule name)
  | some _ =>
    .ok <| d.update name fun m =>
      { m with
        cells := []
        netnames := m.netnames.filter fun n => m.ports.any fun p => p.1 == n.name
        attributes := Entries.put "blackbox" "1" m.attributes
        blackbox := true }

end Design

end ProbeAtlas
