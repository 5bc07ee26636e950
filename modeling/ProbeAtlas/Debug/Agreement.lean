import ProbeAtlas.Debug.Bench
import ProbeAtlas.Debug.Bus
import ProbeAtlas.Debug.Packed

/-!
# ProbeAtlas — agreement of the subsystem and its cores

Eleven checks compare what the subsystem and the cores say about each other and about where the cores
are instantiated. They are made in a fixed order and stop at the first one that fails. On the way the
seventh check stores the probe layout and marks the cores, and the last one stores base addresses.
-/

namespace ProbeAtlas.Bench

open Logged (post)

/-! ## Numbers of modules -/

/-- Every core has one place where it is instantiated. -/
def checkInstantiatorCount (cores : List Core) (instantiators : List String) : Logged Bool := do
  let cores := cores.length
  let places := instantiators.length
  if cores = places then return true
  else
    post 1 s!"Error: Not all the OCLA module (count={cores}) found the instantiator (count={places})"
    return false

/-- The subsystem declares as many cores as there are. -/
def checkCoreCount (b : Bench) : Logged Bool := do
  let declared := b.subsystem.coreCount
  let found := b.cores.length
  if declared = found then return true
  else
    post 1 <| s!"Error: OCLA Debug Subsystem parameter Cores={declared} does not match with " ++
      s!"detected OCLA module count={found}"
    return false

/-- The cores are numbered from zero on. -/
def checkIndexSequence (b : Bench) : Logged Bool := do
  let last : Int := (b.subsystem.coreCount : Int) - 1
  post 1 s!"Check module parameter INDEX sequence, must be 0 .. {last}"
  complainEach b.cores.zipIdx fun (c, k) =>
    if c.index = k then none
    else some <| s!"Error: Module {c.name} has unexpected INDEX, expectation={k}, " ++
      s!"but found {c.index}"

/-! ## Names and identities -/

/-- The subsystem instantiates every core. -/
def checkInstantiatorName (b : Bench) (instantiators : List String) : Logged Bool := do
  post 1 s!"All modules should be instantiated by {b.subsystem.name}"
  complainEach instantiators fun name =>
    if name = b.subsystem.name then none else some s!"Error: Found unexpected instantiator: {name}"

/-- The type, version and identifier of an instance. -/
def identity (type : String) (version id : Nat) : String :=
  s!"IP_TYPE={type}, IP_VERSION={Numeral.hex32 version}, IP_ID={Numeral.hex32 id}"

/-- The cores are of the subsystem's type, version and identifier. -/
def checkIdentity (b : Bench) : Logged Bool := do
  let s := b.subsystem
  post 1 s!"Parameter {identity s.type s.version s.id} must match"
  complainEach b.cores fun c =>
    if c.type = s.type ∧ c.version = s.version ∧ c.id = s.id then none
    else some s!"Error: Module {c.name} has mismatch parameter {identity c.type c.version c.id}"

/-- The widths of a core's bus port. -/
def busPort (addrWidth dataWidth : Nat) : String :=
  s!"AXI_ADDR_WIDTH={addrWidth}, AXI_DATA_WIDTH={dataWidth}"

/-- All cores have the first core's address and data widths. -/
def checkBusPorts (b : Bench) : Logged Bool := do
  match b.cores with
  | [] => return true
  | first :: _ =>
    post 1 s!"Parameter {busPort first.addrWidth first.dataWidth} must match"
    complainEach b.cores fun c =>
      if c.addrWidth = first.addrWidth ∧ c.dataWidth = first.dataWidth then none
      else some s!"Error: Module {c.name} has mismatch parameter {busPort c.addrWidth c.dataWidth}"

/-! ## Probes -/

/-- The layout of the subsystem's probes; a bridge alone has none. -/
def layout (b : Bench) : Run (Option Layout) := do
  post 1 "Parameter IF[n]_Probes must map every probe to one core"
  if b.subsystem.mode = .bridge then return some Layout.empty
  else b.subsystem.decodeLayout

/-- The cores with their places in the layout, up to one whose interface does not exist. -/
def placeCores (s : Subsystem) (layout : Layout) : List Core → List Core × Except Fault Unit
  | [] => ([], .ok ())
  | c :: cs =>
    let c := { c with isBridge := s.bridgeIndex? == some (c.index : Int) }
    match layout.order[c.index]? with
    | none => (c :: cs, .error (.noInterface c.index))
    | some order =>
      let (placed, result) := placeCores s layout cs
      ({ c with probeOrder := order } :: placed, result)

/-- The packed words describe a layout, which the subsystem must not have yet. Stores it. -/
def checkLayout (b : Bench) : Step :=
  let run := b.layout
  match run.result with
  | .error fault => ⟨b, run.log, .error fault⟩
  | .ok none => ⟨b, run.log, .ok false⟩
  | .ok (some layout) =>
    if b.subsystem.layout.isSome then ⟨b, run.log, .error (.layoutPresent b.subsystem.name)⟩
    else
      let s := { b.subsystem with layout := some layout }
      let (cores, result) := placeCores s layout b.cores
      ⟨⟨s, cores⟩, run.log, result.map fun _ => true⟩

/-- What is wrong with the number of probes of a core. -/
def widthComplaint (s : Subsystem) (layout : Layout) (c : Core) : Except Fault (Option String) := do
  let mapped := layout.widthAt c.index
  if c.isBridge then
    let bus ← s.knownBus
    let expected := s.busCount * bus.width
    if c.probeCount = expected ∧ mapped = 0 then return none
    else
      return some <| s!"Error: AXI bridge module {c.name} has NO_OF_PROBES={c.probeCount} " ++
        s!"(expect {expected} for {s.busCount} {bus.text} bus) and mapped width {mapped}"
  else if c.probeCount = mapped then return none
  else
    return some <| s!"Error: Module {c.name} has mismatch parameter NO_OF_PROBES={c.probeCount}, " ++
      s!"mapped width of IF{c.index + 1}={mapped}"

/-- Posts the complaints about the cores one after another. -/
def checkWidths (s : Subsystem) (layout : Layout) : List Core → Run Bool
  | [] => return true
  | c :: cs => do
    match ← Run.ofExcept (widthComplaint s layout c) with
    | none => checkWidths s layout cs
    | some text =>
      post 2 text
      let _ ← checkWidths s layout cs
      return false

/-- Each core has as many probes as the layout or its buses give it. -/
def checkCoreWidths (b : Bench) : Run Bool := do
  post 1 "Parameter NO_OF_PROBES must match the mapped probe widths"
  let layout ← Run.ofExcept b.subsystem.knownLayout
  checkWidths b.subsystem layout b.cores

/-- Interfaces without a core own no probe. -/
def checkUnusedInterfaces (b : Bench) : Run Bool := do
  let used := b.subsystem.coreCount
  if interfaceCount ≤ used then return true
  else
    post 1 s!"Unused IF[{used + 1}..{interfaceCount}] must be null"
    let layout ← Run.ofExcept b.subsystem.knownLayout
    complainEach ((List.range interfaceCount).drop used) fun i =>
      if layout.widthAt i = 0 then none
      else some s!"Error: IF{i + 1} is not null (width={layout.widthAt i})"

/-- The number of probes that a bridge adds to those of the interfaces. -/
def bridgeProbes (b : Bench) : Nat :=
  if b.subsystem.mode = .native then 0
  else ((b.cores.find? Core.isBridge).map Core.probeCount).getD 0

/-- Both the declared and the mapped widths add up to the declared sum. -/
def checkProbesSum (b : Bench) : Run Bool := do
  post 1 "Parameter Probes_Sum must match"
  let sum := b.subsystem.probesSum
  let declared := (b.subsystem.interfaces.map Interface.probeWidth).foldr (· + ·) b.bridgeProbes
  if declared ≠ sum then
    post 2 <| s!"Error: Probes_Sum by declared widths ({declared}) does not match with " ++
      s!"definition ({sum})"
    return false
  else
    let layout ← Run.ofExcept b.subsystem.knownLayout
    let mapped := layout.coreWidth.foldr (· + ·) b.bridgeProbes
    if mapped ≠ sum then
      post 2 <| s!"Error: Probes_Sum by mapped widths ({mapped}) does not match with " ++
        s!"definition ({sum})"
      return false
    else return true

/-! ## Base addresses -/

/-- A core that knows its base address. -/
def addressCore (s : Subsystem) (c : Core) : Except Fault Core := do
  let interface ← s.interface c.index
  return { c with baseAddress := interface.baseAddress }

/-- Posts the base addresses of the cores; `seen` holds those of the cores before. -/
def postAddresses : List Core → List Nat → Logged Bool
  | [], _ => return true
  | c :: cs, seen => do
    let address := Numeral.hex32 c.baseAddress
    if c.baseAddress ∈ seen then
      post 2 s!"Error: Module {c.name} has conflict base address {address}"
      let _ ← postAddresses cs seen
      return false
    else
      post 2 s!"Module {c.name} has base address {address}"
      postAddresses cs (c.baseAddress :: seen)

/-- The cores that have got their base addresses, and those from one on whose interface does not exist. -/
def addressCores (s : Subsystem) : List Core → List Core × List Core × Except Fault Unit
  | [] => ([], [], .ok ())
  | c :: cs =>
    match addressCore s c with
    | .error fault => ([], c :: cs, .error fault)
    | .ok c =>
      let (addressed, rest, result) := addressCores s cs
      (c :: addressed, rest, result)

/-- The base addresses of the cores differ. Stores them. -/
def checkBaseAddresses (b : Bench) : Step :=
  let count := b.cores.length
  let title := post 1 s!"Parameter IF[1..{count}]_BaseAddress must not conflict"
  let (addressed, rest, result) := addressCores b.subsystem b.cores
  let posted := postAddresses addressed []
  ⟨{ b with cores := addressed ++ rest }, title.log ++ posted.log, result.map fun _ => posted.value⟩

/-! ## All checks -/

/-- The checks in their order. -/
def checks (instantiators : List String) : List (Bench → Step) :=
  [fun b => .reading b (checkInstantiatorCount b.cores instantiators),
    fun b => .reading b b.checkCoreCount,
    fun b => .reading b b.checkIndexSequence,
    fun b => .reading b (b.checkInstantiatorName instantiators),
    fun b => .reading b b.checkIdentity,
    fun b => .reading b b.checkBusPorts,
    checkLayout,
    fun b => .reading b b.checkCoreWidths,
    fun b => .reading b b.checkUnusedInterfaces,
    fun b => .reading b b.checkProbesSum,
    checkBaseAddresses]

/-- Makes the checks one after another until one fails. -/
def runChecks : List (Bench → Step) → Bench → Step
  | [], b => ⟨b, [], .ok true⟩
  | check :: rest, b => (check b).andThen (runChecks rest)

/-- Whether the subsystem and the cores agree. There must be a core. -/
def crossCheck (b : Bench) (instantiators : List String) : Step :=
  let title := post 0 "Sanity Check"
  if b.cores.isEmpty then ⟨b, title.log, .error .noCores⟩
  else
    let s := runChecks (checks instantiators) b
    { s with log := title.log ++ s.log }

/-- The same for cores that stand alone: the second check asks for the subsystem. -/
def crossCheckAlone (cores : List Core) (instantiators : List String) : Run Bool := do
  post 0 "Sanity Check"
  if cores.isEmpty then throw .noCores
  else if ← checkInstantiatorCount cores instantiators then throw .noSubsystem
  else return false

end ProbeAtlas.Bench
