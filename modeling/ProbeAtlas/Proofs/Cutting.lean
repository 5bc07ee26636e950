import ProbeAtlas.Proofs.CutAgreement

/-!
# ProbeAtlas — the walk over the fragments decides whether a signal can be cut

The last stage walks over a signal once. It takes whole fragments for one probe after another and never
goes back. Nothing is missed that way: no fragment is empty, so at most one group of fragments from a given
place on is as wide as the probe, and the walk takes that group or finds that there is none. A probe without
bits takes no fragment.

Main results:

* `takeBits_eq_rest_iff` — what is taken for one probe.
* `Core.checkCut_decides` — a core passes iff its signal can be cut.
-/

namespace ProbeAtlas

/-- The fragments fall into consecutive groups, one for every probe, as wide as the probe is declared. A
group may be empty. -/
def Fragment.CutInto (fragments : List Fragment) (s : Subsystem) (probes : List Nat) : Prop :=
  ∃ groups : List (List Fragment), groups.flatten = fragments ∧
    List.Forall₂ (fun p group => ∃ itf, s.interfaces[p]? = some itf ∧
      Fragment.totalWidth group = itf.probeWidth) probes groups

-- ---------------------------------------------------------------------------
-- One probe
-- ---------------------------------------------------------------------------

/-- **What is taken for a probe is the group of that width at the front.** -/
theorem takeBits_eq_rest_iff {fs rest : List Fragment} {need : Nat} (hPos : ∀ f ∈ fs, 0 < f.width) :
    takeBits fs need = .rest rest ↔ ∃ group, fs = group ++ rest ∧ Fragment.totalWidth group = need := by
  constructor
  · intro h
    clear hPos
    induction fs generalizing need with
    | nil =>
      rw [takeBits] at h
      split at h
      · next hZero =>
        cases h
        exact ⟨[], rfl, hZero.symm⟩
      · cases h
    | cons f fs ih =>
      rw [takeBits] at h
      split at h
      · next hZero =>
        cases h
        exact ⟨[], rfl, hZero.symm⟩
      · split at h
        · cases h
        · next hFits =>
          obtain ⟨group, rfl, hWidth⟩ := ih h
          refine ⟨f :: group, rfl, ?_⟩
          rw [Fragment.totalWidth_cons, hWidth]
          omega
  · rintro ⟨group, rfl, rfl⟩
    exact takeBits_append (fun f hf => hPos f (List.mem_append_left _ hf)) rest

-- ---------------------------------------------------------------------------
-- All probes
-- ---------------------------------------------------------------------------

/-- **A signal is cut exactly if it can be.** By induction on the probes: the group of the first one is
settled before the others are looked at. -/
theorem cutProbes_eq_ok_true_iff {s : Subsystem} {level : Int} {probes : List Nat} {fs : List Fragment}
    (hPos : ∀ f ∈ fs, 0 < f.width) :
    (cutProbes (some s) level probes fs).result = .ok true ↔ Fragment.CutInto fs s probes := by
  unfold Fragment.CutInto
  induction probes generalizing fs with
  | nil =>
    rw [cutProbes]
    constructor
    · intro h
      split at h
      · next hNone => exact ⟨[], (List.isEmpty_iff.mp hNone).symm, .nil⟩
      · cases h
    · rintro ⟨_, rfl, hGroups⟩
      cases hGroups
      rfl
  | cons p ps ih =>
    rw [cutProbes, Run.result_bind_eq_ok]
    simp only [Run.result_ofExcept, Subsystem.widthOf_eq_ok, List.forall₂_cons_left_iff]
    constructor
    · rintro ⟨width, ⟨itf, hItf, rfl⟩, h⟩
      split at h
      · next rest hTaken =>
        obtain ⟨group, rfl, hWidth⟩ := (takeBits_eq_rest_iff hPos).mp hTaken
        obtain ⟨groups, rfl, hGroups⟩ := (ih fun f hf => hPos f (List.mem_append_right _ hf)).mp h
        exact ⟨group :: groups, rfl, group, groups, ⟨itf, hItf, hWidth⟩, hGroups, rfl⟩
      · cases h
      · cases h
    · rintro ⟨_, rfl, group, groups, ⟨itf, hItf, hWidth⟩, hGroups, rfl⟩
      rw [List.flatten_cons] at hPos ⊢
      refine ⟨_, ⟨itf, hItf, rfl⟩, ?_⟩
      rw [(takeBits_eq_rest_iff hPos).mpr ⟨group, rfl, hWidth⟩]
      exact (ih fun f hf => hPos f (List.mem_append_right _ hf)).mpr ⟨groups, rfl, hGroups⟩

/-- Cutting ends with a verdict if all probes are known. -/
theorem cutProbes_total {s : Subsystem} {level : Int} {probes : List Nat} {fs : List Fragment}
    (h : ∀ p ∈ probes, p < s.interfaces.length) :
    ∃ verdict, (cutProbes (some s) level probes fs).result = .ok verdict := by
  induction probes generalizing fs with
  | nil =>
    rw [cutProbes]
    split <;> exact ⟨_, rfl⟩
  | cons p ps ih =>
    obtain ⟨hFirst, hRest⟩ := List.forall_mem_cons.mp h
    have hWidth := Subsystem.widthOf_eq_ok.mpr ⟨_, List.getElem?_eq_getElem hFirst, rfl⟩
    rw [cutProbes, Run.result_bind, Run.result_ofExcept, hWidth]
    dsimp only
    split
    · exact ih hRest
    · exact ⟨false, rfl⟩
    · exact ⟨false, rfl⟩

/-- **The walk decides whether a signal can be cut.** A core whose signal has no empty fragment passes iff the
signal is as wide as the core has probes and, unless the core is a bridge, falls into groups for the
probes, the last probe first, with nothing left over. If all its probes are known, checking it ends with a
verdict. -/
theorem Core.checkCut_decides (c : Core) (s : Subsystem) (level : Int) (hPos : ∀ f ∈ c.probes, 0 < f.width) :
    ((c.checkCut (some s) level).result = .ok true ↔ Fragment.totalWidth c.probes = c.probeCount ∧
      (c.isBridge = false → Fragment.CutInto c.probes s c.probeOrder.reverse)) ∧
    ((∀ p ∈ c.probeOrder, p < s.interfaces.length) →
      ∃ verdict, (c.checkCut (some s) level).result = .ok verdict) := by
  unfold checkCut
  dsimp only
  by_cases hTotal : Fragment.totalWidth c.probes = c.probeCount
  · rw [if_neg (not_not.mpr hTotal)]
    cases hBridge : c.isBridge with
    | true => exact ⟨by simp [hTotal], fun _ => ⟨true, rfl⟩⟩
    | false =>
      rw [if_neg (by decide), cutProbes_eq_ok_true_iff hPos]
      refine ⟨by simp [hTotal], fun hOrder => cutProbes_total fun p hp => ?_⟩
      exact hOrder p (List.mem_reverse.mp hp)
  · rw [if_pos hTotal]
    refine ⟨iff_of_false ?_ fun h => hTotal h.1, fun _ => ⟨false, rfl⟩⟩
    intro h
    cases h

/-- A core with fragments of three, one and two bits. -/
def slicedCore (order : List Nat) : Core :=
  { name := "ocla", params := ⟨[], []⟩, type := "OCLA", version := 1, id := 4660, index := 0
    memDepth := 64, probeCount := 6, addrWidth := 32, dataWidth := 32, probeOrder := order
    probes := [.slice ⟨"state", 3, 3, 0, false⟩, .constant ['1'], .slice ⟨"count", 8, 2, 4, false⟩] }

/-- Probes of two, one, no and three bits, and no others. -/
def gradedSubsystem : Subsystem :=
  { pairedSubsystem with
    interfaces := ([2, 1, 0, 3] ++ List.replicate 11 0).map fun width => ⟨width, 0, 0⟩ }

/-- The signal can be cut into all four probes in one order, and in another one it cannot, though the
widths add up. -/
theorem slicedCore_cut :
    (∀ f ∈ (slicedCore [0, 1, 2, 3]).probes, 0 < f.width) ∧
    (∀ p ∈ (slicedCore [0, 1, 2, 3]).probeOrder, p < gradedSubsystem.interfaces.length) ∧
    Fragment.CutInto (slicedCore [0, 1, 2, 3]).probes gradedSubsystem [3, 2, 1, 0] ∧
    ¬ Fragment.CutInto (slicedCore [1, 0, 3]).probes gradedSubsystem [3, 0, 1] := by
  have hPos : ∀ order, ∀ f ∈ (slicedCore order).probes, 0 < f.width := by
    intro order
    show ∀ f ∈ (slicedCore []).probes, 0 < f.width
    decide
  have hDecides := fun order => Core.checkCut_decides (slicedCore order) gradedSubsystem 3 (hPos order)
  refine ⟨hPos _, by decide, ?_, fun hCut => ?_⟩
  · exact ((hDecides [0, 1, 2, 3]).1.mp (by decide)).2 rfl
  · have hRefused : ((slicedCore [1, 0, 3]).checkCut (some gradedSubsystem) 3).result = .ok false := by
      decide
    rw [(hDecides [1, 0, 3]).1.mpr ⟨by decide, fun _ => hCut⟩] at hRefused
    cases hRefused

end ProbeAtlas
