import ProbeAtlas.Netlist.Fragment
import ProbeAtlas.Param.Table

/-!
# ProbeAtlas — debug cores

A debug core records the signals of its probes. It is built from the parameters of its module; its
place in the subsystem and its probe signals are filled in by later stages.
-/

namespace ProbeAtlas

/-- A debug core. -/
structure Core where
  name : String
  params : ParamTable
  type : String
  version : Nat
  id : Nat
  index : Nat
  memDepth : Nat
  probeCount : Nat
  addrWidth : Nat
  dataWidth : Nat
  baseAddress : Nat := 0
  isBridge : Bool := false
  /-- Positions of the core's probes, the least significant one first. -/
  probeOrder : List Nat := []
  /-- The core's signal, most significant fragment first. -/
  probes : List Fragment := []
deriving DecidableEq, Repr

namespace Core

open Logged (post)

/-- The core that a table describes, before its parameters are looked at. -/
def ofTable (name : String) (t : ParamTable) : Except Fault Core := do
  let type ← t.text "IP_TYPE"
  let version ← t.word32 "IP_VERSION"
  let id ← t.word32 "IP_ID"
  let index ← t.word32 "INDEX"
  let memDepth ← t.word32 "MEM_DEPTH"
  let probeCount ← t.word32 "NO_OF_PROBES"
  let addrWidth ← t.word32 "AXI_ADDR_WIDTH"
  let dataWidth ← t.word32 "AXI_DATA_WIDTH"
  return { name, params := t, type, version, id, index, memDepth, probeCount, addrWidth, dataWidth }

/-- A core is of the expected type and has some memory and some probes. -/
def isValid (c : Core) (ipType : String) : Bool :=
  c.type == ipType && 0 < c.memDepth && 0 < c.probeCount

/-- Gives the core if it is valid, and posts why not otherwise. -/
def accept (c : Core) (ipType : String) : Logged (Option Core) := do
  if c.isValid ipType then return some c
  else
    post 1 "Error: Fail to validate parameters"
    post 2 s!"IP_TYPE: {c.type}"
    post 2 s!"MEM_DEPTH: {c.memDepth}"
    post 2 s!"NO_OF_PROBES: {c.probeCount}"
    return none

/-- The valid core that a table describes. -/
def build (name : String) (t : ParamTable) (ipType : String) : Except Fault (Logged (Option Core)) :=
  return (← ofTable name t).accept ipType

end Core

end ProbeAtlas
