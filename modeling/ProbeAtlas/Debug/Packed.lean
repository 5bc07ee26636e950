import ProbeAtlas.Debug.Subsystem
import ProbeAtlas.Run

/-!
# ProbeAtlas — packed probe words

Each native interface lists its probes in one packed word, four bits a probe, the first probe in the
least significant four bits. Probes are numbered from one; a zero ends nothing and is no probe, so it
may only stand above the last one. `Subsystem.decodeLayout` unpacks all words, gives each probe the
place behind those unpacked before it, and demands that every probe is listed exactly once.
-/

namespace ProbeAtlas

/-- The hexadecimal digits of a number, least significant first, with no zero at the end. -/
def nibbles (n : Nat) : List Nat :=
  go n n
where
  /-- Takes off at most `fuel` digits. -/
  go : Nat → Nat → List Nat
  | 0, _ => []
  | fuel + 1, n => if n = 0 then [] else n % 16 :: go fuel (n / 16)

namespace Subsystem

open Logged (post)

/-- The greatest number of a probe. -/
def lastProbe (s : Subsystem) : Nat :=
  min interfaceCount s.probeCount

/-- Gives the listed probes to one interface, `none` once one of them cannot be given. -/
def place (s : Subsystem) (core : Nat) : List Nat → Layout → Run (Option Layout)
  | [], layout => return some layout
  | p :: rest, layout => do
    if p < 1 ∨ s.lastProbe < p then
      post 2 s!"Error: IF{core + 1}_Probes refers to invalid probe {p} (expect 1..{s.lastProbe})"
      return none
    else
      let width := (← Run.ofExcept (s.interface (p - 1))).probeWidth
      if width = 0 then
        post 2 s!"Error: IF{core + 1}_Probes refers to probe {p} but Probe{p}_Width is zero"
        return none
      else if (layout.owner? (p - 1)).isSome then
        post 2 s!"Error: Duplicated Probe {p} found in IF{core + 1}_Probes"
        return none
      else
        post 2 s!"Probe {p} (width={width}) -> IF{core + 1} at offset {layout.widthAt core}"
        place s core rest (layout.assign core (p - 1) width)

/-- Unpacks the words of the given interfaces. Only native interfaces may list probes, and they must. -/
def placeAll (s : Subsystem) : List Nat → Layout → Run (Option Layout)
  | [], layout => return some layout
  | i :: rest, layout => do
    let packed := (← Run.ofExcept (s.interface i)).packed
    if s.nativeCount ≤ i then
      if packed ≠ 0 then
        post 2 s!"Error: IF{i + 1}_Probes must be zero but found {Numeral.hex64 packed}"
        return none
      else placeAll s rest layout
    else if packed = 0 then
      post 2 s!"Error: IF{i + 1}_Probes must not be zero"
      return none
    else
      match ← place s i (nibbles packed) layout with
      | none => return none
      | some layout => placeAll s rest layout

/-- The first of the given interfaces that owns no probe. -/
def firstBare? (layout : Layout) : List Nat → Except Fault (Option Nat)
  | [] => .ok none
  | i :: rest =>
    match layout.order[i]? with
    | none => .error (.noInterface i)
    | some [] => .ok (some i)
    | some _ => firstBare? layout rest

/-- Whether the interface of the bridge owns no probe; without a bridge there is nothing to ask. -/
def bridgeIsBare (layout : Layout) : Option Int → Bool
  | none => true
  | some i => 0 ≤ i && layout.coreWidth[i.toNat]? == some 0

/-- The probe layout that the packed words describe, `none` if they describe none. -/
def decodeLayout (s : Subsystem) : Run (Option Layout) := do
  post 1 s!"Decode IF[1..{s.nativeCount}]_Probes (No_Probes={s.probeCount})"
  match ← s.placeAll (List.range interfaceCount) Layout.empty with
  | none => return none
  | some layout =>
    if layout.ownedCount ≠ s.probeCount then
      post 2 s!"Error: {layout.ownedCount} probe(s) are assigned but No_Probes is {s.probeCount}"
      return none
    else
      match ← Run.ofExcept (firstBare? layout (List.range s.nativeCount.toNat)) with
      | some i =>
        post 2 s!"Error: IF{i + 1} does not own any probe"
        return none
      | none =>
        if bridgeIsBare layout s.bridgeIndex? then return some layout
        else
          post 2 s!"Error: AXI bridge IF{(s.bridgeIndex?.getD 0) + 1} must not own any probe"
          return none

end Subsystem

end ProbeAtlas
