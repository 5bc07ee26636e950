import ProbeAtlas.Debug.Bench
import ProbeAtlas.Value.Basic

/-!
# ProbeAtlas — the report

A report has the messages of an analysis and, if the design qualified, a section for every core and
one for the subsystem. As data it is an object; long words are written as decimal strings, so that no
bit of them is lost.
-/

namespace ProbeAtlas

/-- The place of a probe in the signal of its core. Probes are numbered from one. -/
structure ProbeInfo where
  index : Nat
  offset : Nat
  width : Nat
deriving DecidableEq, Repr

/-- What is reported about a core. -/
structure CoreSection where
  params : List (String × ParamValue)
  address : Nat
  /-- The probes of a native core; a bridge core has none. -/
  probeInfo : Option (List ProbeInfo)
  signals : List String
deriving DecidableEq, Repr

/-- What is reported about a design that qualified. -/
structure QualifiedSection where
  cores : List CoreSection
  subsystem : List (String × ParamValue)
deriving DecidableEq, Repr

/-- The outcome of an analysis as it is written down. -/
structure Report where
  messages : List String
  qualified : Option QualifiedSection
deriving DecidableEq, Repr

namespace Report

/-- What is reported about a probe; without an owner it has the offset zero. -/
def probeInfo (s : Subsystem) (probe : Nat) : Except Fault ProbeInfo := do
  let interface ← s.interface probe
  return {
    index := probe + 1
    offset := ((s.layout.bind (·.owner? probe)).map Owner.offset).getD 0
    width := interface.probeWidth }

/-- What is reported about the probes of a native core. -/
def coreProbes (s : Subsystem) (c : Core) : Except Fault (Option (List ProbeInfo)) :=
  if c.isBridge then .ok none else (c.probeOrder.mapM (probeInfo s)).map some

def coreSection (s : Subsystem) (c : Core) : Except Fault CoreSection := do
  let probeInfo ← coreProbes s c
  return {
    params := c.params.entries
    address := c.baseAddress
    probeInfo
    signals := c.probes.map Fragment.signalName }

/-- The report that has messages only. -/
def ofLog (log : Log) : Report :=
  ⟨log.lines, none⟩

/-- The report on cores that qualified and on their subsystem; without cores it has messages only. -/
def build (log : Log) (subsystem : Option Subsystem) (cores : List Core) : Except Fault Report := do
  if cores.isEmpty then return ofLog log
  else
    let s ← Subsystem.known subsystem
    let sections ← cores.mapM (coreSection s)
    return ⟨log.lines, some ⟨sections, s.params.entries⟩⟩

/-- The report on a bench, if one qualified. -/
def ofBench (log : Log) : Option Bench → Except Fault Report
  | none => .ok (ofLog log)
  | some b => build log (some b.subsystem) b.cores

/-! ## As data -/

def paramValue : ParamValue → Value
  | .word32 n => .ofNat n
  | .word64 n => .string (toString n)
  | .text s => .string s

def paramEntries (params : List (String × ParamValue)) : List (String × Value) :=
  params.map fun (key, v) => (key, paramValue v)

def probeInfoValue (p : ProbeInfo) : Value :=
  .object [("index", .ofNat p.index), ("offset", .ofNat p.offset), ("width", .ofNat p.width)]

def coreValue (c : CoreSection) : Value :=
  .object <|
    paramEntries c.params ++ [("addr", .ofNat c.address)] ++
      (c.probeInfo.map fun info => ("probe_info", Value.array (info.map probeInfoValue))).toList ++
      [("probes", .ofStrings c.signals)]

/-- The report as a data tree. -/
def toValue (r : Report) : Value :=
  .object <|
    ("messages", .ofStrings r.messages) ::
      match r.qualified with
      | none => []
      | some q =>
        [("ocla", .array (q.cores.map coreValue)),
          ("ocla_debug_subsystem", .object (paramEntries q.subsystem))]

end Report

end ProbeAtlas
