import ProbeAtlas.Debug.Layout
import ProbeAtlas.Debug.Mode

/-!
# ProbeAtlas — the debug subsystem

The debug subsystem holds the cores and describes, for each of its interfaces, a probe width, a base
address and a packed word that lists probes. It is built from the parameters of its module; its probe
layout is filled in by a later stage.
-/

namespace ProbeAtlas

/-- One interface of a subsystem. The width is that of the probe with the same position. -/
structure Interface where
  probeWidth : Nat
  baseAddress : Nat
  packed : Nat
deriving DecidableEq, Repr

/-- A debug subsystem. -/
structure Subsystem where
  name : String
  params : ParamTable
  type : String
  version : Nat
  id : Nat
  mode : Mode
  bus : Option BusKind
  busCount : Nat
  coreCount : Nat
  probeCount : Nat
  probesSum : Nat
  interfaces : List Interface
  layout : Option Layout := none
deriving DecidableEq, Repr

namespace Subsystem

open Logged (post)

/-- Whether the numbers of cores and buses suit the mode. -/
def shapeOk (mode : Mode) (cores : Nat) (bus : Option BusKind) (buses : Nat) : Bool :=
  match mode with
  | .native => 1 ≤ cores && cores ≤ interfaceCount
  | .bridge => bus.isSome && 1 ≤ buses && cores == 1
  | .nativeAndBridge => bus.isSome && 1 ≤ buses && 2 ≤ cores && cores ≤ interfaceCount

/-- The interface at a position, as a table describes it. -/
def interfaceOf (t : ParamTable) (i : Nat) : Except Fault Interface := do
  let probeWidth ← t.word32 (Slot.widthKey i)
  let baseAddress ← t.word32 (Slot.addressKey i)
  let packed ← t.word64 (Slot.packedKey i)
  return { probeWidth, baseAddress, packed }

/-- The parameters that decide whether a subsystem is valid. -/
structure Shape where
  type : String
  modeText : String
  busText : String
  coreCount : Nat
  busCount : Nat
  probeCount : Nat

def Shape.ofTable (t : ParamTable) : Except Fault Shape := do
  let type ← t.text "IP_TYPE"
  let modeText ← t.text "Mode"
  let busText ← t.text "Axi_Type"
  let coreCount ← t.word32 "Cores"
  let busCount ← t.word32 "No_AXI_Bus"
  let probeCount ← t.word32 "No_Probes"
  return { type, modeText, busText, coreCount, busCount, probeCount }

/-- The mode of a valid shape. -/
def Shape.mode? (s : Shape) (ipType : String) : Option Mode :=
  (Mode.ofText? s.modeText).filter fun mode =>
    s.type == ipType && shapeOk mode s.coreCount (BusKind.ofText? s.busText) s.busCount &&
      s.probeCount ≤ interfaceCount

/-- Posts the parameters of a shape that is not valid. -/
def Shape.refuse (s : Shape) : Logged (Option Subsystem) := do
  post 1 "Error: Fail to validate parameters"
  post 2 s!"IP_TYPE: {s.type}"
  post 2 s!"Mode: {s.modeText}"
  post 2 s!"Axi_Type: {s.busText}"
  post 2 s!"No_AXI_Bus: {s.busCount}"
  post 2 s!"Cores: {s.coreCount}"
  post 2 s!"No_Probes: {s.probeCount}"
  return none

/-- The subsystem of a valid shape. A subsystem without a bridge has no bus. -/
def ofShape (name : String) (t : ParamTable) (s : Shape) (mode : Mode) : Except Fault Subsystem := do
  let version ← t.word32 "IP_VERSION"
  let id ← t.word32 "IP_ID"
  let probesSum ← t.word32 "Probes_Sum"
  let interfaces ← (List.range interfaceCount).mapM (interfaceOf t)
  return {
    name, params := t, type := s.type, version, id, mode
    bus := if mode = .native then none else BusKind.ofText? s.busText
    busCount := s.busCount, coreCount := s.coreCount, probeCount := s.probeCount
    probesSum, interfaces }

/-- The valid subsystem that a table describes. -/
def build (name : String) (t : ParamTable) (ipType : String) :
    Except Fault (Logged (Option Subsystem)) := do
  let shape ← Shape.ofTable t
  match shape.mode? ipType with
  | none => return shape.refuse
  | some mode =>
    let s ← ofShape name t shape mode
    return pure (some s)

/-- How many native cores the subsystem has; a bridge takes one of the cores away. -/
def nativeCount (s : Subsystem) : Int :=
  match s.mode with
  | .native => s.coreCount
  | .bridge => 0
  | .nativeAndBridge => s.coreCount - 1

/-- The index of the bridge core: the first behind the native cores. -/
def bridgeIndex? (s : Subsystem) : Option Int :=
  match s.mode with
  | .native => none
  | _ => some s.nativeCount

/-- The interface at a position. -/
def interface (s : Subsystem) (i : Nat) : Except Fault Interface :=
  match s.interfaces[i]? with
  | some itf => .ok itf
  | none => .error (.noInterface i)

/-- The probe layout. -/
def knownLayout (s : Subsystem) : Except Fault Layout :=
  match s.layout with
  | some l => .ok l
  | none => .error (.layoutMissing s.name)

/-- The bus that the bridge watches. -/
def knownBus (s : Subsystem) : Except Fault BusKind :=
  match s.bus with
  | some b => .ok b
  | none => .error (.noBus s.name s.mode)

/-- The subsystem, for a stage that can do without one up to here. -/
def known : Option Subsystem → Except Fault Subsystem
  | some s => .ok s
  | none => .error .noSubsystem

/-- The declared width of a probe. -/
def widthOf (s : Option Subsystem) (probe : Nat) : Except Fault Nat := do
  let interface ← (← known s).interface probe
  return interface.probeWidth

end Subsystem

end ProbeAtlas
