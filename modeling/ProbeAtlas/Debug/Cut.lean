import ProbeAtlas.Debug.Core
import ProbeAtlas.Debug.Subsystem
import ProbeAtlas.Run

/-!
# ProbeAtlas — cutting a core's signal into its probes

The signal of a core is as wide as the core has probes. The signal of a native core can moreover be
cut between fragments into one part for every probe, each as wide as the probe is declared. Going
through the fragments from the front decides this, because there is at most one way to cut.
-/

namespace ProbeAtlas

open Logged (post)

/-- What is left after taking some bits off the front of a signal. -/
inductive Taken where
  | rest (fragments : List Fragment)
  /-- The signal ends this many bits too early. -/
  | short (missing : Nat)
  /-- The end falls inside a fragment. -/
  | straddles
deriving DecidableEq, Repr

/-- Takes whole fragments of `need` bits in all. -/
def takeBits : List Fragment → Nat → Taken
  | [], need => if need = 0 then .rest [] else .short need
  | f :: fs, need =>
    if need = 0 then .rest (f :: fs)
    else if need < f.width then .straddles
    else takeBits fs (need - f.width)

/-- Cuts a signal into the given probes with nothing left over. -/
def cutProbes (s : Option Subsystem) (level : Int) : List Nat → List Fragment → Run Bool
  | [], fragments => do
    if fragments.isEmpty then return true
    else
      post level s!"Error: {fragments.length} signal(s) left over after the last probe"
      return false
  | p :: ps, fragments => do
    let width ← Run.ofExcept (Subsystem.widthOf s p)
    match takeBits fragments width with
    | .rest fragments => cutProbes s level ps fragments
    | .short missing =>
      post level s!"Error: Probe {p + 1} is short of {missing} bit(s)"
      return false
    | .straddles =>
      post level s!"Error: Signal of probe {p + 1} straddles its declared width {width}"
      return false

/-- Whether a core's signal is as wide as it should be and can be cut into the core's probes. The subsystem
is asked for the widths of the probes. -/
def Core.checkCut (c : Core) (s : Option Subsystem) (level : Int) : Run Bool := do
  let total := Fragment.totalWidth c.probes
  if total ≠ c.probeCount then
    post level <| s!"Error: Invalid total probe signal(s) bus size {total} " ++
      s!"(NO_OF_PROBES {c.probeCount})"
    return false
  else if c.isBridge then return true
  else cutProbes s level c.probeOrder.reverse c.probes

end ProbeAtlas
