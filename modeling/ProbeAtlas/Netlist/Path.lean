import ProbeAtlas.Log
import ProbeAtlas.Netlist.Design

/-!
# ProbeAtlas — the path from a module up to the top

A module has a unique path if it is instantiated by one cell only, the module holding that cell is
too, and so on up to the top. The debug subsystem needs such a path of at least two cells.
-/

namespace ProbeAtlas

/-- The way from a module up to the top. -/
structure UniquePath where
  /-- The module that holds the first cell. -/
  instantiator : String
  /-- The names of the cells, from the module's own cell up to a cell of the top. -/
  chain : List String
deriving DecidableEq, Repr

namespace Design

open Logged (post postAll)

/-- The instantiating cells of a module, each posted. -/
def postUses (d : Design) (module : String) : Logged (List Use) := do
  let users := d.uses module
  postAll 2 (users.map fun u => s!"Instantiated by {u.holder.name} as {u.cell.name}")
  return users

/-- Posts that the top is reached, and gives the chain if it is long enough. -/
def arrive (chain : List String) : Logged (Option (List String)) := do
  post 3 "This is top module"
  if chain.length < 2 then
    post 3 "Error: Hierarchy level for OCLA Debug Subsystem is out of expectation"
    return none
  else
    let path := ".".intercalate chain.reverse
    post 3 s!"Connection chain for OCLA Debug Subsystem: {path}"
    return some chain

/-- Climbs from `target` towards the top. `chain` holds the cells passed so far, and at most `fuel`
more steps follow this one. The result has the chain and the module of its first cell. -/
def climb (d : Design) (top : String) :
    Nat → String → List String → String → Logged (Option UniquePath)
  | fuel, target, chain, first => do
    post 1 s!"Module: {target}"
    let users ← d.postUses target
    match users with
    | [] =>
      post 2 "Error: not instantiated by any module"
      return none
    | [u] =>
      let chain := chain ++ [u.cell.name]
      let first := if chain.length = 1 then u.holder.name else first
      if u.holder.name = top then
        return (← arrive chain).map fun chain => ⟨first, chain⟩
      else
        match fuel with
        | 0 =>
          post 2 s!"Error: instantiation loop through {u.holder.name}"
          return none
        | fuel + 1 => climb d top fuel u.holder.name chain first
    | _ =>
      post 2 s!"Error: instantiated {users.length} times"
      return none

/-- The unique path of a module, `none` if it has none. A path passes every module at most once, so
the number of modules bounds the climb. -/
def uniquePath? (d : Design) (module : String) : Logged (Option UniquePath) := do
  post 0 "Check uniqueness of OCLA Debug Subsystem"
  if d.flattened then
    post 1 "Error: hierarchy cannot be resolved once the design is flattened"
    return none
  else
    match d.topModule? with
    | none =>
      post 1 "Error: design has no top module"
      return none
    | some top =>
      match ← d.climb top.name d.modules.length module [] "" with
      | none => return none
      | some path =>
        post 1 s!"OCLA Debug Subsystem Instantiator: {path.instantiator}"
        return some path

/-- The names of the modules that hold a cell of the given type, one for every cell. -/
def holders (d : Design) (module : String) : Logged (List String) := do
  post 0 s!"Check instantiator for OCLA module {module}"
  let names := (d.uses module).map fun u => u.holder.name
  postAll 1 (names.map fun n => s!"Instantiated by {n}")
  if names.isEmpty then post 1 "Warning: Does not detect any instantiator"
  return names

end Design

end ProbeAtlas
