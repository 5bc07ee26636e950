import ProbeAtlas.Debug.Mode
import ProbeAtlas.Param.Literal

/-!
# ProbeAtlas — faults

A fault ends a stage before it can give a verdict. A finding about the design is no fault: it goes to
the log. The causes are listed here, and `Fault.message` is the only place that words them.

A stage that does not end throws nothing and says nothing. `Impasse` keeps the two apart.
-/

namespace ProbeAtlas

/-- Why a stage could not go on. -/
inductive Fault where
  /-- A constant fragment without bits. -/
  | emptyConstant
  /-- A slice of the wire that is not at least one bit wide. -/
  | emptySlice (wire : String)
  /-- The table holds no value of this kind under the key. -/
  | notDecoded (key : String) (kind : ParamKind)
  /-- A module to blackbox that the design does not have. -/
  | unknownModule (name : String)
  /-- Flattening needs a top module. -/
  | noTop
  /-- The module is nested deeper than there are modules. -/
  | recursive (name : String)
  /-- Cross-checking needs a core. -/
  | noCores
  /-- The cores stand alone, and a stage asks for their subsystem. -/
  | noSubsystem
  /-- The subsystem has its probe layout already. -/
  | layoutPresent (subsystem : String)
  /-- The subsystem has no probe layout yet. -/
  | layoutMissing (subsystem : String)
  /-- The mode asks for a bus, and the subsystem names none. -/
  | noBus (subsystem : String) (mode : Mode)
  /-- The core has its probe signals already. -/
  | probesPresent (core : String)
  /-- The subsystem has no interface at this position. -/
  | noInterface (position : Nat)
  /-- The flattened design has no top module. -/
  | topVanished
  /-- Probes are looked up in the top module, and there is none. -/
  | nowhere
deriving DecidableEq, Repr

def Fault.message : Fault → String
  | .emptyConstant => "constant fragment must carry at least one bit"
  | .emptySlice wire => s!"fragment of {wire} must have a positive width"
  | .notDecoded key kind => s!"parameter {key} is not a decoded {kind.typeName}"
  | .unknownModule name => s!"cannot blackbox unknown module {name}"
  | .noTop => "cannot flatten a design without a top module"
  | .recursive name => s!"recursive instantiation of {name}"
  | .noCores => "sanity check needs at least one OCLA module"
  | .noSubsystem => "there is no debug subsystem"
  | .layoutPresent subsystem => s!"probe map of {subsystem} is already decoded"
  | .layoutMissing subsystem => s!"probe map of {subsystem} has not been decoded"
  | .noBus subsystem mode => s!"subsystem {subsystem} in {mode.text} mode has no AXI type"
  | .probesPresent core => s!"probe signals of {core} are already resolved"
  | .noInterface position => s!"there is no interface {position}"
  | .topVanished => "top module vanished during flatten"
  | .nowhere => "there is no top module to look up probes in"

/-- Why something that was begun has no result: an error was thrown, or it goes on for ever. -/
inductive Impasse (ε : Type) where
  | thrown (error : ε)
  /-- The contents of the module are copied into that module again and again. -/
  | endless (name : String)
deriving DecidableEq, Repr

/-- The same impasse in terms of other errors. -/
def Impasse.map {ε ε' : Type} (f : ε → ε') : Impasse ε → Impasse ε'
  | .thrown e => .thrown (f e)
  | .endless name => .endless name

end ProbeAtlas
