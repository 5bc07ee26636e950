import ProbeAtlas.Fault
import ProbeAtlas.Log

/-!
# ProbeAtlas — runs of a stage

A run posts entries and ends with a value or a fault. What was posted before a fault stays.
-/

namespace ProbeAtlas

/-- A stage that may end with a fault. -/
abbrev Run (α : Type) := ExceptT Fault Logged α

namespace Run

variable {α : Type}

/-- The entries that a run posted. -/
def log (r : Run α) : Log :=
  (ExceptT.run r).log

/-- How a run ended. -/
def result (r : Run α) : Except Fault α :=
  (ExceptT.run r).value

/-- A run that posts nothing. -/
def ofExcept (e : Except Fault α) : Run α :=
  ExceptT.mk (pure e)

/-- A run that cannot fail. -/
def ofLogged (x : Logged α) : Run α :=
  ExceptT.lift x

@[simp] theorem log_pure (a : α) : (pure a : Run α).log = [] := rfl

@[simp] theorem result_pure (a : α) : (pure a : Run α).result = .ok a := rfl

/-- A run that goes on appends to what it posted; after a fault nothing is added. -/
theorem log_bind {β : Type} (r : Run α) (f : α → Run β) :
    (r >>= f).log = r.log ++ match r.result with
      | .ok a => (f a).log
      | .error _ => [] := by
  obtain ⟨value, log⟩ := r
  cases value <;> rfl

/-- The first fault is the result. -/
theorem result_bind {β : Type} (r : Run α) (f : α → Run β) :
    (r >>= f).result = match r.result with
      | .ok a => (f a).result
      | .error fault => .error fault := by
  obtain ⟨value, log⟩ := r
  cases value <;> rfl

@[simp] theorem log_ofExcept (e : Except Fault α) : (ofExcept e).log = [] := rfl

@[simp] theorem result_ofExcept (e : Except Fault α) : (ofExcept e).result = e := rfl

end Run

end ProbeAtlas
