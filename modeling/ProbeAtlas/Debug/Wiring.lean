import ProbeAtlas.Debug.Bench
import ProbeAtlas.Debug.Bus
import ProbeAtlas.Netlist.Connection
import ProbeAtlas.Rules

/-!
# ProbeAtlas — wiring the probes

In the flattened top module the probes of the native cores are connected to ports of one cell, the
instance of the module that holds the subsystem. Each connection is read as fragments and must be as
wide as its probe is declared. A core's signal is made of the fragments of its probes, the most
significant probe first. The bridge core's signal is made of the signals of its buses.
-/

namespace ProbeAtlas

open Logged (post)

/-- Where the probes are looked up. -/
structure Site where
  top : Module
  /-- It is asked for the widths of probes and for the buses of a bridge. -/
  subsystem : Option Subsystem
  rules : Rules
  cell : Cell

/-- What wiring leaves behind: the cores, the entries posted, and how it ended. -/
structure Wired where
  cores : List Core
  log : Log
  result : Except Fault Bool

namespace Site

/-- The fragments of one probe, and whether they are as they should be. The port has the number of the probe
in its name (`Rules.schema` demands a place for it), so it is none of the names that every object inherits,
which `reservedPorts` is about: a port that is not connected is not found. -/
def wireProbe (site : Site) (core : String) (probe : Nat) : Run (List Fragment × Bool) := do
  let port := site.rules.portOf probe
  match site.cell.connection? port with
  | none =>
    post 2 s!"Error: Missing probe connection {port} for module {core}"
    return ([], false)
  | some bits =>
    post 2 s!"Potential Probe Connection: {port}"
    let found := site.top.fragments bits
    if found.isEmpty then
      post 3 s!"Error: Fail to parse connection {port}"
      return ([], false)
    else
      post 3 s!"Connected to {Fragment.joinNames found}"
      let declared ← Run.ofExcept (Subsystem.widthOf site.subsystem probe)
      let width := Fragment.totalWidth found
      if width = declared then return (found, true)
      else
        post 3 s!"Error: Connection {port} is {width} bit(s) but Probe{probe + 1}_Width is {declared}"
        return (found, false)

/-- The fragments of the given probes one after another. -/
def wireProbes (site : Site) (core : String) : List Nat → Run (List Fragment × Bool)
  | [] => return ([], true)
  | probe :: rest => do
    let (found, ok) ← site.wireProbe core probe
    let (more, okMore) ← wireProbes site core rest
    return (found ++ more, ok && okMore)

/-- The signal of a core. -/
def wireCore (site : Site) (c : Core) : Run (List Fragment × Bool) := do
  if c.isBridge then
    let s ← Run.ofExcept (Subsystem.known site.subsystem)
    let bus ← Run.ofExcept s.knownBus
    let fragments := bus.fragments s.busCount
    let count := fragments.length
    post 1 s!"Module {c.name} bridges {s.busCount} {bus.text} bus(es) with {count} signal(s)"
    return (fragments, true)
  else site.wireProbes c.name c.probeOrder.reverse

/-- Wires the cores in order. At a fault the cores before it are wired. -/
def wireCores (site : Site) : List Core → Wired
  | [] => ⟨[], [], .ok true⟩
  | c :: cs =>
    let run := site.wireCore c
    match run.result with
    | .error fault => ⟨c :: cs, run.log, .error fault⟩
    | .ok (fragments, ok) =>
      let rest := wireCores site cs
      ⟨{ c with probes := fragments } :: rest.cores, run.log ++ rest.log, rest.result.map (ok && ·)⟩

end Site

/-- Complains about the cores that have got no signal. -/
def checkWired (cores : List Core) : Logged Bool :=
  complainEach cores fun c =>
    if c.probes.isEmpty then
      some s!"Error: Module {c.name} (INDEX={c.index}) failed to get probe signals"
    else none

/-- Wires cores to the only cell of the given type in the top module. No core may be wired yet. -/
def wireAll (subsystem : Option Subsystem) (cores : List Core) (top : Option Module) (instantiator : String)
    (rules : Rules) : Wired :=
  let title := post 0 s!"Retrieve OCLA signals from instantiator: {instantiator}"
  match cores.find? fun c => !c.probes.isEmpty with
  | some c => ⟨cores, title.log, .error (.probesPresent c.name)⟩
  | none =>
    match top with
    | none => ⟨cores, title.log, .error .nowhere⟩
    | some top =>
      match top.cells.filter fun c => c.type == instantiator with
      | [cell] =>
        let place := post 1 s!"Instantiated as {cell.name}"
        let wired := Site.wireCores ⟨top, subsystem, rules, cell⟩ cores
        let log := title.log ++ place.log ++ wired.log
        match wired.result with
        | .error fault => ⟨wired.cores, log, .error fault⟩
        | .ok ok =>
          let check := checkWired wired.cores
          ⟨wired.cores, log ++ check.log, .ok (ok && check.value)⟩
      | cells =>
        let count := cells.length
        let complaint :=
          post 1 s!"Error: Expect one instance of {instantiator} in {top.name} but found {count}"
        ⟨cores, title.log ++ complaint.log, .ok false⟩

/-- Wires the cores of a bench. -/
def Bench.wire (b : Bench) (top : Option Module) (instantiator : String) (rules : Rules) : Step :=
  let wired := wireAll (some b.subsystem) b.cores top instantiator rules
  ⟨{ b with cores := wired.cores }, wired.log, wired.result⟩

end ProbeAtlas
