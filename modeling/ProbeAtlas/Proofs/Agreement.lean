import Mathlib.Algebra.BigOperators.Group.List.Basic
import Mathlib.Algebra.Ring.Nat
import ProbeAtlas.Debug.Agreement
import ProbeAtlas.Proofs.Layout

/-!
# ProbeAtlas — what the cross-check establishes

The eleven checks run one after another on a bench that two of them change. This module says for each
check what its positive verdict means, and puts the pieces together: if the cross-check passes, the
bench satisfies `Bench.Agreement`, and what it leaves behind is `Bench.settled`, the same subsystem
with its layout and the same cores in their places.

Main result: `Bench.crossCheck_passed`.
-/

namespace ProbeAtlas

/-- The base address of the interface at a position. -/
def Subsystem.address (s : Subsystem) (i : Nat) : Nat :=
  ((s.interfaces[i]?).map Interface.baseAddress).getD 0

/-- The core in its place: whether it is the bridge, and the probes its interface owns. -/
def Core.place (s : Subsystem) (l : Layout) (c : Core) : Core :=
  { c with
    isBridge := s.bridgeIndex? == some (c.index : Int)
    probeOrder := (l.order[c.index]?).getD [] }

/-- The core in its place and at its address. -/
def Core.settle (s : Subsystem) (l : Layout) (c : Core) : Core :=
  { c.place s l with baseAddress := s.address c.index }

/-- The bench that a passing cross-check leaves. -/
def Bench.settled (b : Bench) (l : Layout) : Bench :=
  { subsystem := { b.subsystem with layout := some l }
    cores := b.cores.map (Core.settle b.subsystem l) }

/-- What a core's number of probes must be. -/
def Core.WidthAgrees (s : Subsystem) (l : Layout) (c : Core) : Prop :=
  if c.isBridge then ∃ bus, s.bus = some bus ∧ c.probeCount = s.busCount * bus.width ∧
    l.widthAt c.index = 0
  else c.probeCount = l.widthAt c.index

/-- What the eleven checks compare, one field a check and two for the checks that compare twice. -/
structure Bench.Agreement (b : Bench) (instantiators : List String) (l : Layout) : Prop where
  someCore    : b.cores ≠ []
  places      : b.cores.length = instantiators.length
  coreCount   : b.subsystem.coreCount = b.cores.length
  index       : ∀ (k : Nat) c, b.cores[k]? = some c → c.index = k
  holder      : ∀ name ∈ instantiators, name = b.subsystem.name
  identity    : ∀ c ∈ b.cores,
                  c.type = b.subsystem.type ∧ c.version = b.subsystem.version ∧ c.id = b.subsystem.id
  busPorts    : ∀ c ∈ b.cores, ∀ c' ∈ b.cores, c.addrWidth = c'.addrWidth ∧ c.dataWidth = c'.dataWidth
  layout      : b.layout.result = .ok (some l)
  noLayout    : b.subsystem.layout = none
  owned       : ∀ c ∈ b.cores, (l.order[c.index]?).isSome
  widths      : ∀ c ∈ b.cores, (c.place b.subsystem l).WidthAgrees b.subsystem l
  unused      : ∀ i, b.subsystem.coreCount ≤ i → i < interfaceCount → l.widthAt i = 0
  declaredSum : (b.subsystem.interfaces.map Interface.probeWidth).sum + (b.settled l).bridgeProbes =
                  b.subsystem.probesSum
  mappedSum   : l.coreWidth.sum + (b.settled l).bridgeProbes = b.subsystem.probesSum
  addressed   : ∀ c ∈ b.cores, (b.subsystem.interfaces[c.index]?).isSome
  addresses   : (b.cores.map fun c => b.subsystem.address c.index).Nodup

namespace Bench

open Logged (post)

/-! ## Numbers of modules, names and identities -/

theorem checkInstantiatorCount_value {cores : List Core} {instantiators : List String} :
    (checkInstantiatorCount cores instantiators).value = true ↔
      cores.length = instantiators.length := by
  unfold checkInstantiatorCount
  dsimp only
  split <;> simp_all

theorem checkCoreCount_value {b : Bench} :
    b.checkCoreCount.value = true ↔ b.subsystem.coreCount = b.cores.length := by
  unfold checkCoreCount
  dsimp only
  split <;> simp_all

theorem checkIndexSequence_value {b : Bench} :
    b.checkIndexSequence.value = true ↔ ∀ (k : Nat) c, b.cores[k]? = some c → c.index = k := by
  unfold checkIndexSequence
  rw [Logged.value_bind, complainEach_value_iff]
  constructor
  · intro h k c hk
    have hmem : (c, k) ∈ b.cores.zipIdx := List.mem_zipIdx_iff_getElem?.mpr hk
    by_contra hne
    have := h (c, k) hmem
    simp [hne] at this
  · rintro h ⟨c, k⟩ hmem
    have := h k c (List.mem_zipIdx_iff_getElem?.mp hmem)
    simp [this]

theorem checkInstantiatorName_value {b : Bench} {instantiators : List String} :
    (b.checkInstantiatorName instantiators).value = true ↔
      ∀ name ∈ instantiators, name = b.subsystem.name := by
  unfold checkInstantiatorName
  rw [Logged.value_bind, complainEach_value_iff]
  refine forall₂_congr fun name _ => ?_
  split <;> simp_all

theorem checkIdentity_value {b : Bench} :
    b.checkIdentity.value = true ↔ ∀ c ∈ b.cores,
      c.type = b.subsystem.type ∧ c.version = b.subsystem.version ∧ c.id = b.subsystem.id := by
  unfold checkIdentity
  rw [Logged.value_bind, complainEach_value_iff]
  refine forall₂_congr fun c _ => ?_
  split <;> simp_all

/-- All cores have the first one's widths, so any two of them agree. -/
theorem checkBusPorts_value {b : Bench} (h : b.checkBusPorts.value = true) :
    ∀ c ∈ b.cores, ∀ c' ∈ b.cores, c.addrWidth = c'.addrWidth ∧ c.dataWidth = c'.dataWidth := by
  unfold checkBusPorts at h
  split at h
  · next hNone => simp [hNone]
  next first rest hCores =>
    rw [Logged.value_bind, complainEach_value_iff] at h
    have hFirst : ∀ c ∈ b.cores, c.addrWidth = first.addrWidth ∧ c.dataWidth = first.dataWidth := by
      intro c hc
      have := h c hc
      by_contra hne
      rw [if_neg hne] at this
      cases this
    intro c hc c' hc'
    obtain ⟨ha, hd⟩ := hFirst c hc
    obtain ⟨ha', hd'⟩ := hFirst c' hc'
    exact ⟨ha.trans ha'.symm, hd.trans hd'.symm⟩

/-! ## The layout -/

theorem placeCores_ok {s : Subsystem} {l : Layout} {cores : List Core}
    (h : (placeCores s l cores).2 = .ok ()) :
    (placeCores s l cores).1 = cores.map (Core.place s l) ∧
      ∀ c ∈ cores, (l.order[c.index]?).isSome := by
  induction cores with
  | nil => exact ⟨rfl, by simp⟩
  | cons c cs ih =>
    cases hOrder : l.order[c.index]? with
    | none =>
      rw [placeCores, hOrder] at h
      cases h
    | some order =>
      have hEq : placeCores s l (c :: cs) =
          (c.place s l :: (placeCores s l cs).1, (placeCores s l cs).2) := by
        rw [placeCores, Core.place, hOrder]
        rfl
      rw [hEq] at h ⊢
      obtain ⟨hPlaced, hSome⟩ := ih h
      refine ⟨by rw [hPlaced, List.map_cons], ?_⟩
      intro c' hc'
      rcases List.mem_cons.mp hc' with rfl | hc'
      · rw [hOrder, Option.isSome_some]
      · exact hSome c' hc'

/-- The bench after the seventh check. -/
theorem checkLayout_passed {b : Bench} (h : b.checkLayout.result = .ok true) :
    ∃ l, b.layout.result = .ok (some l) ∧ b.subsystem.layout = none ∧
      (∀ c ∈ b.cores, (l.order[c.index]?).isSome) ∧
      b.checkLayout.bench =
        ⟨{ b.subsystem with layout := some l }, b.cores.map (Core.place b.subsystem l)⟩ := by
  unfold checkLayout at h ⊢
  dsimp only at h ⊢
  cases hRun : b.layout.result with
  | error fault =>
    rw [hRun] at h
    cases h
  | ok found =>
    cases found with
    | none =>
      rw [hRun] at h
      cases h
    | some l =>
      rw [hRun] at h
      dsimp only at h ⊢
      split at h
      · cases h
      next hNone =>
        rw [if_neg hNone]
        obtain ⟨u, hUnit, -⟩ := except_map_eq_ok.mp h
        obtain ⟨hPlaced, hSome⟩ := placeCores_ok hUnit
        refine ⟨l, rfl, by simpa using hNone, hSome, ?_⟩
        rw [hPlaced]
        rfl

/-- A layout that a bench has fits its subsystem. -/
theorem layout_fits {b : Bench} {l : Layout} (h : b.layout.result = .ok (some l)) :
    l.Fits b.subsystem := by
  unfold layout at h
  rw [Run.result_lift_bind] at h
  split at h
  · next hMode =>
    cases h
    exact Layout.empty_fits hMode
  · exact Subsystem.decodeLayout_fits h

/-! ## Widths and sums -/

theorem widthComplaint_eq_none {s : Subsystem} {l : Layout} {c : Core}
    (h : widthComplaint s l c = .ok none) : c.WidthAgrees s l := by
  unfold widthComplaint at h
  unfold Core.WidthAgrees
  dsimp only at h
  split at h
  · next hBridge =>
    rw [if_pos hBridge]
    obtain ⟨bus, hBus, h⟩ := except_bind_eq_ok.mp h
    split at h
    · next hAgrees =>
      refine ⟨bus, ?_, hAgrees⟩
      unfold Subsystem.knownBus at hBus
      split at hBus <;> cases hBus
      assumption
    · cases h
  · next hNative =>
    rw [if_neg hNative]
    split at h
    · assumption
    · cases h

theorem checkWidths_passed {s : Subsystem} {l : Layout} {cores : List Core}
    (h : (checkWidths s l cores).result = .ok true) : ∀ c ∈ cores, c.WidthAgrees s l := by
  induction cores with
  | nil => simp
  | cons c cs ih =>
    rw [checkWidths] at h
    obtain ⟨complaint, hComplaint, h⟩ := Run.result_bind_eq_ok.mp h
    rw [Run.result_ofExcept] at hComplaint
    split at h
    · intro c' hc'
      rcases List.mem_cons.mp hc' with rfl | hc'
      · exact widthComplaint_eq_none hComplaint
      · exact ih h c' hc'
    · rw [Run.result_lift_bind] at h
      obtain ⟨_, _, h⟩ := Run.result_bind_eq_ok.mp h
      cases h

theorem knownLayout_eq_ok {s : Subsystem} {l : Layout} :
    s.knownLayout = .ok l ↔ s.layout = some l := by
  unfold Subsystem.knownLayout
  split <;> simp_all

theorem checkCoreWidths_passed {b : Bench} {l : Layout} (hLayout : b.subsystem.layout = some l)
    (h : b.checkCoreWidths.result = .ok true) : ∀ c ∈ b.cores, c.WidthAgrees b.subsystem l := by
  unfold checkCoreWidths at h
  rw [Run.result_lift_bind] at h
  obtain ⟨l', hl', h⟩ := Run.result_bind_eq_ok.mp h
  rw [Run.result_ofExcept, knownLayout_eq_ok, hLayout] at hl'
  cases hl'
  exact checkWidths_passed h

theorem checkUnusedInterfaces_passed {b : Bench} {l : Layout}
    (hLayout : b.subsystem.layout = some l) (h : b.checkUnusedInterfaces.result = .ok true) :
    ∀ i, b.subsystem.coreCount ≤ i → i < interfaceCount → l.widthAt i = 0 := by
  unfold checkUnusedInterfaces at h
  dsimp only at h
  intro i hUsed hi
  split at h
  · omega
  · rw [Run.result_lift_bind] at h
    obtain ⟨l', hl', h⟩ := Run.result_bind_eq_ok.mp h
    rw [Run.result_ofExcept, knownLayout_eq_ok, hLayout] at hl'
    cases hl'
    rw [Run.result_lift] at h
    have hmem : i ∈ (List.range interfaceCount).drop b.subsystem.coreCount := by
      refine List.mem_iff_getElem?.mpr ⟨i - b.subsystem.coreCount, ?_⟩
      rw [List.getElem?_drop, Nat.add_sub_cancel' hUsed, List.getElem?_range hi]
    have := complainEach_value_iff.mp (Except.ok.inj h) i hmem
    by_contra hne
    rw [if_neg hne] at this
    cases this

theorem foldr_add_eq_sum (ns : List Nat) (n : Nat) : ns.foldr (· + ·) n = ns.sum + n := by
  induction ns with
  | nil => simp
  | cons m ms ih => rw [List.foldr_cons, ih, List.sum_cons, Nat.add_assoc]

theorem checkProbesSum_passed {b : Bench} {l : Layout} (hLayout : b.subsystem.layout = some l)
    (h : b.checkProbesSum.result = .ok true) :
    (b.subsystem.interfaces.map Interface.probeWidth).sum + b.bridgeProbes = b.subsystem.probesSum ∧
      l.coreWidth.sum + b.bridgeProbes = b.subsystem.probesSum := by
  unfold checkProbesSum at h
  rw [Run.result_lift_bind] at h
  dsimp only at h
  split at h
  · cases h
  next hDeclared =>
    obtain ⟨l', hl', h⟩ := Run.result_bind_eq_ok.mp h
    rw [Run.result_ofExcept, knownLayout_eq_ok, hLayout] at hl'
    cases hl'
    split at h
    · cases h
    next hMapped =>
      rw [foldr_add_eq_sum] at hDeclared hMapped
      exact ⟨not_not.mp hDeclared, not_not.mp hMapped⟩

/-! ## Addresses -/

theorem addressCore_eq_ok {s : Subsystem} {c c' : Core} (h : addressCore s c = .ok c') :
    (s.interfaces[c.index]?).isSome ∧ c' = { c with baseAddress := s.address c.index } := by
  obtain ⟨itf, hItf, h⟩ := except_bind_eq_ok.mp h
  cases h
  rw [Subsystem.interface_eq_ok] at hItf
  rw [Subsystem.address, hItf]
  exact ⟨rfl, rfl⟩

/-- The verdict on addresses is positive iff they differ from each other and from those seen. -/
theorem postAddresses_value {cores : List Core} {seen : List Nat} :
    (postAddresses cores seen).value = true ↔
      (cores.map Core.baseAddress).Nodup ∧ ∀ c ∈ cores, c.baseAddress ∉ seen := by
  induction cores generalizing seen with
  | nil => simp [postAddresses]
  | cons c cs ih =>
    rw [postAddresses]
    split
    · next hSeen => simp [hSeen]
    · next hNew =>
      rw [Logged.value_bind, ih, List.map_cons, List.nodup_cons, List.forall_mem_cons]
      simp only [List.mem_cons, not_or, List.mem_map, not_exists, not_and]
      constructor
      · rintro ⟨hNodup, hSeen⟩
        exact ⟨⟨fun c' hc' => (hSeen c' hc').1, hNodup⟩, hNew, fun c' hc' => (hSeen c' hc').2⟩
      · rintro ⟨⟨hDiffer, hNodup⟩, -, hSeen⟩
        exact ⟨hNodup, fun c' hc' => ⟨hDiffer c' hc', hSeen c' hc'⟩⟩

theorem addressCores_ok {s : Subsystem} {cores : List Core}
    (h : (addressCores s cores).2.2 = .ok ()) :
    (∀ c ∈ cores, (s.interfaces[c.index]?).isSome) ∧ (addressCores s cores).2.1 = [] ∧
      (addressCores s cores).1 = cores.map fun c => { c with baseAddress := s.address c.index } := by
  induction cores with
  | nil => exact ⟨by simp, rfl, rfl⟩
  | cons c cs ih =>
    rw [addressCores] at h ⊢
    cases hFirst : addressCore s c with
    | error fault =>
      rw [hFirst] at h
      cases h
    | ok c' =>
      rw [hFirst] at h
      obtain ⟨hSome, rfl⟩ := addressCore_eq_ok hFirst
      obtain ⟨hRest, hNone, hAddressed⟩ := ih h
      exact ⟨List.forall_mem_cons.mpr ⟨hSome, hRest⟩, hNone, congrArg (List.cons _) hAddressed⟩

theorem checkBaseAddresses_passed {b : Bench} (h : b.checkBaseAddresses.result = .ok true) :
    (∀ c ∈ b.cores, (b.subsystem.interfaces[c.index]?).isSome) ∧
      (b.cores.map fun c => b.subsystem.address c.index).Nodup ∧
      b.checkBaseAddresses.bench =
        { b with cores := b.cores.map fun c => { c with baseAddress := b.subsystem.address c.index } } := by
  unfold checkBaseAddresses at h ⊢
  dsimp only at h ⊢
  obtain ⟨_, hResult, hVerdict⟩ := except_map_eq_ok.mp h
  obtain ⟨hSome, hRest, hAddressed⟩ := addressCores_ok hResult
  rw [hAddressed] at hVerdict ⊢
  have hNodup := (postAddresses_value.mp hVerdict).1
  rw [List.map_map] at hNodup
  rw [hRest, List.append_nil]
  exact ⟨hSome, hNodup, rfl⟩

/-! ## All checks -/

/-- If checks pass, the first one does and the others do on the bench it leaves. -/
theorem runChecks_cons_passed {check : Bench → Step} {rest : List (Bench → Step)} {b : Bench}
    (h : (runChecks (check :: rest) b).result = .ok true) :
    (check b).result = .ok true ∧ (runChecks rest (check b).bench).result = .ok true ∧
      (runChecks (check :: rest) b).bench = (runChecks rest (check b).bench).bench := by
  obtain ⟨hCheck, hRest⟩ := Step.andThen_eq_ok_true.mp h
  exact ⟨hCheck, hRest, (Step.andThen_of_passed hCheck _).2⟩

/-- The same for a check that only looks at the bench. -/
theorem runChecks_reading_passed {run : Bench → Run Bool} {rest : List (Bench → Step)} {b : Bench}
    (h : (runChecks ((fun b => .reading b (run b)) :: rest) b).result = .ok true) :
    (run b).result = .ok true ∧ (runChecks rest b).result = .ok true ∧
      (runChecks ((fun b => .reading b (run b)) :: rest) b).bench = (runChecks rest b).bench :=
  runChecks_cons_passed h

/-- The bridge has its number of probes whether or not addresses are known. -/
theorem bridgeProbes_placed (b : Bench) (l : Layout) :
    bridgeProbes ⟨{ b.subsystem with layout := some l }, b.cores.map (Core.place b.subsystem l)⟩ =
      (b.settled l).bridgeProbes := by
  rw [bridgeProbes, bridgeProbes, settled, List.find?_map, List.find?_map, Option.map_map,
    Option.map_map]
  rfl

/-- **A bench that passes the cross-check agrees in all points, and is settled afterwards.** -/
theorem crossCheck_passed {b : Bench} {instantiators : List String}
    (h : (b.crossCheck instantiators).result = .ok true) :
    ∃ l, b.Agreement instantiators l ∧ (b.crossCheck instantiators).bench = b.settled l := by
  unfold crossCheck at h ⊢
  dsimp only at h ⊢
  split at h
  · cases h
  next hSome =>
    rw [if_neg hSome]
    dsimp only at h ⊢
    unfold checks at h ⊢
    -- six checks that only look at the bench
    obtain ⟨hPlaces, h, hBench₁⟩ := runChecks_reading_passed h
    obtain ⟨hCount, h, hBench₂⟩ := runChecks_reading_passed h
    obtain ⟨hIndex, h, hBench₃⟩ := runChecks_reading_passed h
    obtain ⟨hHolder, h, hBench₄⟩ := runChecks_reading_passed h
    obtain ⟨hIdentity, h, hBench₅⟩ := runChecks_reading_passed h
    obtain ⟨hPorts, h, hBench₆⟩ := runChecks_reading_passed h
    rw [hBench₁, hBench₂, hBench₃, hBench₄, hBench₅, hBench₆]
    -- the one that stores the layout
    obtain ⟨hLayout, h, hBench₇⟩ := runChecks_cons_passed h
    obtain ⟨l, hRun, hNone, hOwned, hBench⟩ := checkLayout_passed hLayout
    rw [hBench₇, hBench]
    rw [hBench] at h
    -- three that compare with the layout, and the one that stores addresses
    obtain ⟨hWidths, h, hBench₈⟩ := runChecks_reading_passed h
    obtain ⟨hUnused, h, hBench₉⟩ := runChecks_reading_passed h
    obtain ⟨hSums, h, hBench₁₀⟩ := runChecks_reading_passed h
    obtain ⟨hAddresses, -, hBench₁₁⟩ := runChecks_cons_passed h
    rw [hBench₈, hBench₉, hBench₁₀, hBench₁₁]
    obtain ⟨hAddressed, hDistinct, hBench⟩ := checkBaseAddresses_passed hAddresses
    rw [hBench]
    have hSums := checkProbesSum_passed rfl hSums
    rw [bridgeProbes_placed] at hSums
    refine ⟨l, ⟨?_, ?_, ?_, ?_, ?_, ?_, ?_, hRun, hNone, hOwned, ?_, ?_, hSums.1, hSums.2, ?_, ?_⟩, ?_⟩
    · simpa using hSome
    · exact checkInstantiatorCount_value.mp (Except.ok.inj hPlaces)
    · exact checkCoreCount_value.mp (Except.ok.inj hCount)
    · exact checkIndexSequence_value.mp (Except.ok.inj hIndex)
    · exact checkInstantiatorName_value.mp (Except.ok.inj hHolder)
    · exact checkIdentity_value.mp (Except.ok.inj hIdentity)
    · exact checkBusPorts_value (Except.ok.inj hPorts)
    · intro c hc
      exact checkCoreWidths_passed rfl hWidths (c.place b.subsystem l) (List.mem_map_of_mem hc)
    · intro i hUsed hi
      exact checkUnusedInterfaces_passed rfl hUnused i hUsed hi
    · intro c hc
      exact hAddressed (c.place b.subsystem l) (List.mem_map_of_mem hc)
    · rw [List.map_map] at hDistinct
      exact hDistinct
    · rw [settled, List.map_map]
      rfl

end Bench

end ProbeAtlas
