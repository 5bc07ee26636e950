/-!
# ProbeAtlas — modes of the debug subsystem

A subsystem serves native cores, one bridge core that watches buses, or native cores and a bridge.
-/

namespace ProbeAtlas

/-- What a debug subsystem serves. -/
inductive Mode where
  | native
  | bridge
  | nativeAndBridge
deriving DecidableEq, Repr

def Mode.text : Mode → String
  | .native => "NATIVE"
  | .bridge => "AXI"
  | .nativeAndBridge => "NATIVE_AXI"

def Mode.ofText? : String → Option Mode
  | "NATIVE" => some .native
  | "AXI" => some .bridge
  | "NATIVE_AXI" => some .nativeAndBridge
  | _ => none

/-- The kind of bus that a bridge core watches. -/
inductive BusKind where
  | full
  | lite
deriving DecidableEq, Repr

def BusKind.text : BusKind → String
  | .full => "AXI4"
  | .lite => "AXILite"

def BusKind.ofText? : String → Option BusKind
  | "AXI4" => some .full
  | "AXILite" => some .lite
  | _ => none

@[simp] theorem Mode.ofText?_text (m : Mode) : Mode.ofText? m.text = some m := by
  cases m <;> rfl

@[simp] theorem BusKind.ofText?_text (b : BusKind) : BusKind.ofText? b.text = some b := by
  cases b <;> rfl

end ProbeAtlas
