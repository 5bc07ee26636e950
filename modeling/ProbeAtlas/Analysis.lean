import ProbeAtlas.Debug.Agreement
import ProbeAtlas.Debug.Census
import ProbeAtlas.Debug.Cut
import ProbeAtlas.Debug.Wiring
import ProbeAtlas.Netlist.Flatten
import ProbeAtlas.Netlist.Path
import ProbeAtlas.Report

/-!
# ProbeAtlas — analysing a design

The analysis takes the census of debug modules, finds the path to the subsystem, cross-checks it
against its cores, blackboxes the module that holds the subsystem, flattens the design, wires the
probes and checks how each core's signal is cut. It ends at the first stage that fails. Either every
core qualifies, or none does.
-/

namespace ProbeAtlas

open Logged (post)

/-- How far the stages got: the design they leave, what they posted, and the bench that qualified. -/
structure Progress where
  design : Design
  log : Log
  result : Except (Impasse Fault) (Option Bench)

namespace Progress

/-- The same progress after some earlier entries. -/
def after (log : Log) (p : Progress) : Progress :=
  { p with log := log ++ p.log }

/-- The stages end because the design does not qualify; the reason is posted. -/
def refused (d : Design) (level : Int) (reason : String) : Progress :=
  ⟨d, [⟨level, reason⟩], .ok none⟩

/-- The stages come to no verdict. -/
def halted (d : Design) (impasse : Impasse Fault) : Progress :=
  ⟨d, [], .error impasse⟩

end Progress

namespace Analysis

/-! ## The last stage: cutting the signals -/

/-- A fragment with its name and its place in the wire. -/
def fragmentEntries (f : Fragment) : Log :=
  [⟨4, s!"--> {f.fullName}"⟩, ⟨5, s!": {f.name} (width={f.width}, offset={f.offset})"⟩]

/-- Posts the fragments of a signal. -/
def postFragments (fragments : List Fragment) : Logged Unit :=
  ⟨(), fragments.flatMap fragmentEntries⟩

/-- Checks one core and posts its signal. -/
def finish (s : Subsystem) (c : Core) : Run Bool := do
  post 1 s!"Module: {c.name}"
  post 2 "Final checking ..."
  if ← c.checkCut (some s) 3 then
    post 3 "Probes:"
    postFragments c.probes
    return true
  else
    post 3 "Error: Disqualify this module"
    return false

/-- Checks the cores in order; all of them are checked. -/
def finishAll (s : Subsystem) : List Core → Run Bool
  | [] => return true
  | c :: cs => do
    let ok ← finish s c
    let okRest ← finishAll s cs
    return ok && okRest

/-! ## From the flattened design to the verdict -/

/-- Wires and finishes the cores of a bench in a flat design. -/
def onFlat (rules : Rules) (d : Design) (b : Bench) (instantiator : String) : Progress :=
  match d.topModule? with
  | none => .halted d (.thrown .topVanished)
  | some top =>
    let step := b.wire (some top) instantiator rules
    Progress.after step.log <|
      match step.result with
      | .error fault => .halted d (.thrown fault)
      | .ok false => .refused d 0 "Error: Fail to get probe signals"
      | .ok true =>
        let run := finishAll step.bench.subsystem step.bench.cores
        match run.result with
        | .error fault => ⟨d, run.log, .error (.thrown fault)⟩
        | .ok ok => ⟨d, run.log, .ok (if ok then some step.bench else none)⟩

/-- Blackboxes the module around the subsystem, flattens the design and goes on from there. -/
def onHierarchy (rules : Rules) (d : Design) (b : Bench) (instantiator : String) : Progress :=
  Progress.after [⟨0, s!"Run command: blackbox {instantiator}"⟩] <|
    match d.blackbox instantiator with
    | .error fault => .halted d (.thrown fault)
    | .ok boxed =>
      Progress.after [⟨0, "Run command: flatten"⟩] <|
        match boxed.flatten with
        | (left, some impasse) => .halted left impasse
        | (flat, none) => onFlat rules flat b instantiator

/-- Finds the subsystem and the cores in the hierarchy and cross-checks them. -/
def onBench (rules : Rules) (d : Design) (b : Bench) : Progress :=
  let path := d.uniquePath? b.subsystem.name
  Progress.after path.log <|
    match path.value with
    | none =>
      .refused d 1 "Error: Currently only support one OCLA Debug Subsystem instance in a design"
    | some found =>
      let holders := b.cores.mapM fun c => d.holders c.name
      let instantiators := holders.value.flatten
      Progress.after holders.log <|
        if instantiators.isEmpty then .refused d 0 "Error: Does not find any OCLA instantiator"
        else
          let step := b.crossCheck instantiators
          Progress.after step.log <|
            match step.result with
            | .error fault => .halted d (.thrown fault)
            | .ok false => .refused d 0 "Error: Sanity check fail"
            | .ok true => onHierarchy rules d step.bench found.instantiator

/-- All stages. There must be some core and exactly one subsystem. -/
def stages (rules : Rules) (d : Design) : Progress :=
  let census := Census.take rules d
  match census.result with
  | .error fault => ⟨d, census.log, .error (.thrown fault)⟩
  | .ok found =>
    Progress.after census.log <|
      match found.cores, found.subsystems with
      | _ :: _, [subsystem] => onBench rules d ⟨subsystem, found.cores⟩
      | cores, subsystems =>
        .refused d 0 <| s!"Warning/Error: OCLA module count={cores.length}, " ++
          s!"OCLA Debug Subsystem module count={subsystems.length}"

end Analysis

/-- What an analysis throws. -/
inductive Abort where
  /-- The design has no top module; the report says so. -/
  | noTop (report : Report)
  | fault (fault : Fault)
deriving DecidableEq, Repr

def Abort.message : Abort → String
  | .noTop _ => "Cannot find top module"
  | .fault f => f.message

/-- The report and the number of cores that qualified. -/
structure Finding where
  report : Report
  qualified : Nat
deriving DecidableEq, Repr

/-- An analysis: the design it leaves, its log, and its finding or why there is none. -/
structure Analysis where
  design : Design
  log : Log
  outcome : Except (Impasse Abort) Finding

/-- Analyses a design under the given rules. -/
def Design.analyze (d : Design) (rules : Rules) : Analysis :=
  let opening : Log := [⟨0, "Start of OCLA Analysis"⟩]
  let closing : Log := [⟨0, "End of OCLA Analysis"⟩]
  match d.topModule? with
  | none =>
    let log := opening ++ [⟨0, "Cannot find top module"⟩] ++ closing
    ⟨d, log, .error (.thrown (.noTop (.ofLog log)))⟩
  | some _ =>
    let progress := Analysis.stages rules d
    match progress.result with
    | .error impasse => ⟨progress.design, opening ++ progress.log, .error (impasse.map .fault)⟩
    | .ok qualified =>
      let log := opening ++ progress.log ++ closing
      let count := (qualified.map fun b => b.cores.length).getD 0
      match Report.ofBench log qualified with
      | .error fault => ⟨progress.design, log, .error (.thrown (.fault fault))⟩
      | .ok report => ⟨progress.design, log, .ok ⟨report, count⟩⟩

end ProbeAtlas
