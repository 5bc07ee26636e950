import ProbeAtlas.Debug.Core
import ProbeAtlas.Debug.Subsystem
import ProbeAtlas.Netlist.Design
import ProbeAtlas.Rules
import ProbeAtlas.Run

/-!
# ProbeAtlas — the census of debug modules

Every module whose name matches the rules is a candidate. Candidates with complete and valid
parameters become debug cores, kept by index, or debug subsystems, kept in the order of the design.
-/

namespace ProbeAtlas

/-- What a module may be. -/
inductive Role where
  | core
  | subsystem
deriving DecidableEq, Repr

/-- The role of a module by its name; the name of a core is tried first. -/
def Rules.role? (r : Rules) (name : String) : Option Role :=
  if namesModule r.coreModule name then some .core
  else if namesModule r.subsystemModule name then some .subsystem
  else none

/-- The debug cores and subsystems of a design. -/
structure Census where
  cores : List Core
  subsystems : List Subsystem
deriving DecidableEq, Repr

/-- Puts a core before the first one of greater index. -/
def insertCore (core : Core) : List Core → List Core
  | [] => [core]
  | c :: cs => if core.index < c.index then core :: c :: cs else c :: insertCore core cs

namespace Census

open Logged (post)

/-- The core that a module is, `none` if its parameters do not qualify. -/
def core? (rules : Rules) (m : Module) : Run (Option Core) := do
  match ← ParamTable.decode? Slot.coreSlots m.parameters with
  | none => return none
  | some table =>
    let built ← Run.ofExcept (Core.build m.name table rules.ipType)
    Run.ofLogged built

/-- The subsystem that a module is, `none` if its parameters do not qualify. -/
def subsystem? (rules : Rules) (m : Module) : Run (Option Subsystem) := do
  match ← ParamTable.decode? Slot.subsystemSlots m.parameters with
  | none => return none
  | some table =>
    let built ← Run.ofExcept (Subsystem.build m.name table rules.ipType)
    Run.ofLogged built

/-- Adds what a module is to the census. -/
def visit (rules : Rules) (census : Census) (m : Module) : Run Census := do
  match rules.role? m.name with
  | none => return census
  | some .core =>
    post 0 s!"Detected Potential OCLA: {m.name}"
    match ← core? rules m with
    | some core =>
      post 1 "Qualified as OCLA module"
      return { census with cores := insertCore core census.cores }
    | none =>
      post 1 "Error: this is not qualified as OCLA module"
      return census
  | some .subsystem =>
    post 0 s!"Detected Potential OCLA Debug Subsystem: {m.name}"
    match ← subsystem? rules m with
    | some subsystem =>
      post 1 "Qualified as OCLA Debug Subsystem module"
      return { census with subsystems := census.subsystems ++ [subsystem] }
    | none =>
      post 1 "Error: this is not qualified as OCLA Debug Subsystem module"
      return census

/-- Visits modules one after another. -/
def visitAll (rules : Rules) : List Module → Census → Run Census
  | [], census => return census
  | m :: ms, census => do
    let census ← visit rules census m
    visitAll rules ms census

/-- The census of a design, which must still have its hierarchy. -/
def take (rules : Rules) (d : Design) : Run Census := do
  if d.flattened then
    post 0 "Error: modules cannot be classified once the design is flattened"
    return ⟨[], []⟩
  else visitAll rules d.modules ⟨[], []⟩

end Census

end ProbeAtlas
