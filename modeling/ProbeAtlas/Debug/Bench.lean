import ProbeAtlas.Debug.Core
import ProbeAtlas.Debug.Subsystem
import ProbeAtlas.Run

/-!
# ProbeAtlas — the bench

The bench is what the later stages work on: the subsystem and its cores. A step on the bench gives the
bench it leaves, the entries it posted, and how it ended. A fault or a negative verdict does not undo
what the step has done to the bench.
-/

namespace ProbeAtlas

/-- The subsystem and the cores under examination. -/
structure Bench where
  subsystem : Subsystem
  cores : List Core
deriving DecidableEq, Repr

/-- What a step on the bench leaves behind. -/
structure Step where
  bench : Bench
  log : Log
  result : Except Fault Bool

namespace Step

/-- A step that only looks at the bench. -/
def reading (b : Bench) (r : Run Bool) : Step :=
  ⟨b, r.log, r.result⟩

/-- The next step, taken only after a positive verdict. -/
def andThen (s : Step) (next : Bench → Step) : Step :=
  match s.result with
  | .ok true =>
    let t := next s.bench
    { t with log := s.log ++ t.log }
  | _ => s

/-- Whether the step ended with a positive verdict. -/
def passed (s : Step) : Bool :=
  match s.result with
  | .ok verdict => verdict
  | .error _ => false

end Step

/-- Posts a complaint for every item that has one; the verdict is positive if none has. -/
def complainEach {α : Type} (items : List α) (complaint : α → Option String) : Logged Bool := do
  let texts := items.filterMap complaint
  Logged.postAll 2 texts
  return texts.isEmpty

end ProbeAtlas
