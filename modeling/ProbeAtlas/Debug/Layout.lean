import ProbeAtlas.Param.Table

/-!
# ProbeAtlas — probe layouts

A probe layout says which probes an interface owns, in which order and at which offsets. Probes and
interfaces are given by their positions, from zero on.
-/

namespace ProbeAtlas

/-- The interface that owns a probe and the probe's offset there. -/
structure Owner where
  core : Nat
  offset : Nat
deriving DecidableEq, Repr

/-- Which interface owns which probe. -/
structure Layout where
  /-- For every interface its probes, the least significant one first. -/
  order : List (List Nat)
  /-- For every probe its owner. -/
  owner : List (Option Owner)
  /-- For every interface the sum of the widths of its probes. -/
  coreWidth : List Nat
deriving DecidableEq, Repr

namespace Layout

/-- No interface owns a probe. -/
def empty : Layout :=
  { order := List.replicate interfaceCount []
    owner := List.replicate interfaceCount none
    coreWidth := List.replicate interfaceCount 0 }

/-- The width that an interface has so far. -/
def widthAt (l : Layout) (core : Nat) : Nat :=
  l.coreWidth[core]?.getD 0

/-- The owner of a probe. -/
def owner? (l : Layout) (probe : Nat) : Option Owner :=
  l.owner[probe]?.join

/-- Gives a probe to an interface, above the probes that it has already. -/
def assign (l : Layout) (core probe width : Nat) : Layout :=
  { order := l.order.modify core (· ++ [probe])
    owner := l.owner.set probe (some ⟨core, l.widthAt core⟩)
    coreWidth := l.coreWidth.modify core (· + width) }

/-- How many probes have an owner. -/
def ownedCount (l : Layout) : Nat :=
  l.owner.countP Option.isSome

end Layout

end ProbeAtlas
