import ProbeAtlas.Proofs.CutAgreement

/-!
# ProbeAtlas — wiring passes exactly on fully wired benches

Wiring goes on after a complaint, and what it has read by then stays attached. So the verdict is a
conjunction over all probes of all cores and a look at what came together for each core. The fragments
found for a probe are the signal of its port in any case, also where the verdict is negative; the verdict
compares widths of fragments, and these add up to the number of connected bits however the nets are named.

Main results:

* `Site.wireCore_exact` — what is found for a core, and when that is as it should be.
* `Bench.wire_exact` — wiring passes iff every core is fully wired to the one cell.
-/

namespace ProbeAtlas

/-- The subsystem has buses for a bridge, and every probe of a native core is connected to its port of
the cell by as many bits as it is declared to have. A native core has some probe, and a probe has some
bit. -/
structure Core.FullyWired (c : Core) (s : Subsystem) (rules : Rules) (cell : Cell) : Prop where
  buses  : c.isBridge = true → 1 ≤ s.busCount
  listed : c.isBridge = false → c.probeOrder ≠ []
  ports  : c.isBridge = false → ∀ p ∈ c.probeOrder, ∃ bits,
    cell.connection? (rules.portOf p) = some bits ∧ bits.length = s.probeWidth p ∧ 1 ≤ s.probeWidth p

-- ---------------------------------------------------------------------------
-- Probes
-- ---------------------------------------------------------------------------

theorem Module.fragments_eq_nil_iff {m : Module} {bits : List Bit} : m.fragments bits = [] ↔ bits = [] := by
  constructor
  · intro h
    have hWidth := m.totalWidth_fragments bits
    rw [h, Fragment.totalWidth_nil] at hWidth
    exact List.length_eq_zero_iff.mp hWidth.symm
  · rintro rfl
    rfl

namespace Site

variable {site : Site} {s : Subsystem}

/-- The port of the probe is connected, by as many bits as the probe is declared to have, and by some. -/
def Feeds (site : Site) (s : Subsystem) (probe : Nat) : Prop :=
  ∃ bits, site.cell.connection? (site.rules.portOf probe) = some bits ∧
    bits.length = s.probeWidth probe ∧ 1 ≤ s.probeWidth probe

/-- The signal of the port is found in any case, and the verdict is about the number of its bits. -/
theorem wireProbe_exact (hSite : site.subsystem = some s) (core : String) {probe : Nat}
    (h : probe < s.interfaces.length) :
    ∃ ok, (site.wireProbe core probe).result = .ok (site.signal probe, ok) ∧
      (ok = true ↔ site.Feeds s probe) := by
  have hWidth : Subsystem.widthOf site.subsystem probe = .ok (s.probeWidth probe) := by
    have hInterface := List.getElem?_eq_getElem h
    rw [hSite, Subsystem.widthOf_eq_ok]
    exact ⟨_, hInterface, Subsystem.probeWidth_of_interface (Subsystem.interface_eq_ok.mpr hInterface)⟩
  unfold wireProbe Feeds
  dsimp only
  cases hPort : site.cell.connection? (site.rules.portOf probe) with
  | none =>
    refine ⟨false, ?_, by simp⟩
    rw [signal, hPort]
    rfl
  | some bits =>
    rw [signal_of_connection hPort]
    dsimp only
    rw [Run.result_lift_bind]
    by_cases hEmpty : bits = []
    · -- a port connected to nothing is refused, even if the probe has no bits
      subst hEmpty
      refine ⟨false, rfl, iff_of_false (by decide) ?_⟩
      rintro ⟨bits, hBits, hLength, hPos⟩
      cases hBits
      rw [← hLength] at hPos
      cases hPos
    · have hFound : ¬ (site.top.fragments bits).isEmpty = true := by
        rw [List.isEmpty_iff, Module.fragments_eq_nil_iff]
        exact hEmpty
      have hPos : 1 ≤ bits.length := List.length_pos_iff.mpr hEmpty
      rw [if_neg hFound, Run.result_lift_bind]
      simp only [Run.result_bind_eq_ok, Run.result_ofExcept, hWidth, Module.totalWidth_fragments]
      refine ⟨decide (bits.length = s.probeWidth probe), ⟨_, rfl, ?_⟩, ?_⟩
      · by_cases hSame : bits.length = s.probeWidth probe
        · rw [if_pos hSame, decide_eq_true hSame]
          rfl
        · rw [if_neg hSame, decide_eq_false hSame]
          rfl
      · rw [decide_eq_true_eq]
        constructor
        · intro hSame
          exact ⟨bits, rfl, hSame, hSame ▸ hPos⟩
        · rintro ⟨bits', hBits', hSame, -⟩
          cases hBits'
          exact hSame

theorem wireProbes_exact (hSite : site.subsystem = some s) (core : String) {probes : List Nat}
    (h : ∀ p ∈ probes, p < s.interfaces.length) :
    ∃ ok, (site.wireProbes core probes).result = .ok (probes.flatMap site.signal, ok) ∧
      (ok = true ↔ ∀ p ∈ probes, site.Feeds s p) := by
  induction probes with
  | nil => exact ⟨true, rfl, by simp⟩
  | cons p ps ih =>
    obtain ⟨hFirst, hRest⟩ := List.forall_mem_cons.mp h
    obtain ⟨ok, hRun, hOk⟩ := wireProbe_exact hSite core hFirst
    obtain ⟨okMore, hRunMore, hOkMore⟩ := ih hRest
    refine ⟨ok && okMore, ?_, ?_⟩
    · rw [wireProbes, Run.result_bind_eq_ok]
      refine ⟨_, hRun, ?_⟩
      rw [Run.result_bind_eq_ok]
      exact ⟨_, hRunMore, rfl⟩
    · rw [Bool.and_eq_true, hOk, hOkMore, List.forall_mem_cons]

-- ---------------------------------------------------------------------------
-- Cores
-- ---------------------------------------------------------------------------

/-- What is read for a core: the wires of its buses, or the signals of its probes, the last probe first. -/
def coreSignal (site : Site) (s : Subsystem) (c : Core) : List Fragment :=
  if c.isBridge then (s.bus.map fun bus => bus.fragments s.busCount).getD []
  else c.probeOrder.reverse.flatMap site.signal

/-- **What is found for a core, and when that is as it should be.** -/
theorem wireCore_exact (hSite : site.subsystem = some s) {c : Core} (hBus : c.isBridge = true → s.bus.isSome)
    (hOrder : ∀ p ∈ c.probeOrder, p < s.interfaces.length) :
    ∃ ok, (site.wireCore c).result = .ok (site.coreSignal s c, ok) ∧
      (ok = true ↔ (c.isBridge = false → ∀ p ∈ c.probeOrder, site.Feeds s p)) := by
  unfold wireCore coreSignal
  cases hBridge : c.isBridge with
  | true =>
    obtain ⟨bus, hKind⟩ := Option.isSome_iff_exists.mp (hBus hBridge)
    have hKnown : s.knownBus = .ok bus := by rw [Subsystem.knownBus, hKind]
    refine ⟨true, ?_, by simp⟩
    rw [if_pos rfl, if_pos rfl, hSite, hKind, Run.result_bind_eq_ok]
    refine ⟨s, rfl, ?_⟩
    rw [Run.result_bind_eq_ok]
    exact ⟨bus, hKnown, rfl⟩
  | false =>
    have hReverse : ∀ p ∈ c.probeOrder.reverse, p < s.interfaces.length :=
      fun p hp => hOrder p (List.mem_reverse.mp hp)
    obtain ⟨ok, hRun, hOk⟩ := wireProbes_exact hSite c.name hReverse
    refine ⟨ok, hRun, ?_⟩
    simp only [hOk, List.mem_reverse, forall_const]

/-- **The cores carry what was found, and the verdict is that about each of them.** -/
theorem wireCores_exact (hSite : site.subsystem = some s) {cores : List Core}
    (hBus : ∀ c ∈ cores, c.isBridge = true → s.bus.isSome)
    (hOrder : ∀ c ∈ cores, ∀ p ∈ c.probeOrder, p < s.interfaces.length) :
    (site.wireCores cores).cores = cores.map (fun c => { c with probes := site.coreSignal s c }) ∧
      ∃ ok, (site.wireCores cores).result = .ok ok ∧
        (ok = true ↔ ∀ c ∈ cores, c.isBridge = false → ∀ p ∈ c.probeOrder, site.Feeds s p) := by
  induction cores with
  | nil => exact ⟨rfl, true, rfl, by simp⟩
  | cons c cs ih =>
    obtain ⟨hBusHere, hBusRest⟩ := List.forall_mem_cons.mp hBus
    obtain ⟨hOrderHere, hOrderRest⟩ := List.forall_mem_cons.mp hOrder
    obtain ⟨ok, hRun, hOk⟩ := wireCore_exact hSite hBusHere hOrderHere
    obtain ⟨hCores, okRest, hResult, hOkRest⟩ := ih hBusRest hOrderRest
    rw [wireCores]
    dsimp only
    rw [hRun]
    dsimp only
    refine ⟨by rw [hCores, List.map_cons], ok && okRest, by rw [hResult]; rfl, ?_⟩
    rw [Bool.and_eq_true, hOk, hOkRest, List.forall_mem_cons]

theorem Feeds.signal_ne_nil {probe : Nat} (h : site.Feeds s probe) : site.signal probe ≠ [] := by
  obtain ⟨bits, hBits, hLength, hPos⟩ := h
  rw [signal_of_connection hBits, ne_eq, Module.fragments_eq_nil_iff]
  rintro rfl
  rw [← hLength] at hPos
  cases hPos

end Site

theorem BusKind.fragments_eq_nil_iff {kind : BusKind} {buses : Nat} : kind.fragments buses = [] ↔ buses = 0 := by
  constructor
  · intro h
    have hWidth := kind.totalWidth_fragments buses
    rw [h, Fragment.totalWidth_nil] at hWidth
    have hKind : kind.width ≠ 0 := by cases kind <;> decide
    exact (Nat.mul_eq_zero.mp hWidth.symm).resolve_right hKind
  · rintro rfl
    rfl

/-- A core is fully wired iff its probes are fed and it has got a signal. -/
theorem Core.fullyWired_iff {site : Site} {s : Subsystem} {c : Core} (hBus : c.isBridge = true → s.bus.isSome) :
    c.FullyWired s site.rules site.cell ↔
      (c.isBridge = false → ∀ p ∈ c.probeOrder, site.Feeds s p) ∧ site.coreSignal s c ≠ [] := by
  unfold Site.coreSignal
  cases hBridge : c.isBridge with
  | true =>
    obtain ⟨bus, hKind⟩ := Option.isSome_iff_exists.mp (hBus hBridge)
    rw [if_pos rfl, hKind, Option.map_some, Option.getD_some, ne_eq, BusKind.fragments_eq_nil_iff]
    constructor
    · intro h
      exact ⟨by simp, Nat.ne_of_gt (h.buses hBridge)⟩
    · rintro ⟨-, hCount⟩
      exact ⟨fun _ => Nat.pos_of_ne_zero hCount, by simp [hBridge], by simp [hBridge]⟩
  | false =>
    rw [if_neg (by decide), ne_eq, List.flatMap_eq_nil_iff]
    constructor
    · intro h
      refine ⟨fun _ => h.ports hBridge, fun hNone => ?_⟩
      obtain ⟨p, hp⟩ := List.exists_mem_of_ne_nil _ (h.listed hBridge)
      exact Site.Feeds.signal_ne_nil (h.ports hBridge p hp) (hNone p (List.mem_reverse.mpr hp))
    · rintro ⟨hFeeds, hSome⟩
      refine ⟨by simp [hBridge], fun _ hNil => hSome ?_, fun _ => hFeeds rfl⟩
      rw [hNil]
      simp

-- ---------------------------------------------------------------------------
-- The verdict
-- ---------------------------------------------------------------------------

theorem checkWired_value {cores : List Core} :
    (checkWired cores).value = true ↔ ∀ c ∈ cores, c.probes ≠ [] := by
  rw [checkWired, complainEach_value_iff]
  refine forall₂_congr fun c _ => ?_
  cases c.probes <;> simp

/-- **Wiring passes iff every core is fully wired to the one cell of the instantiator.** It ends with a
verdict. Where there is one such cell the cores carry the signals read off it, and nothing else has
changed. -/
theorem Bench.wire_exact (b : Bench) (top : Module) (instantiator : String) (rules : Rules)
    (hInterfaces : b.subsystem.interfaces.length = interfaceCount)
    (hBus : ∀ c ∈ b.cores, c.isBridge = true → b.subsystem.bus.isSome)
    (hBare : ∀ c ∈ b.cores, c.probes = [])
    (hOrder : ∀ c ∈ b.cores, ∀ p ∈ c.probeOrder, p < interfaceCount) :
    (∃ verdict, (b.wire (some top) instantiator rules).result = .ok verdict ∧
      (verdict = true ↔ ∃ cell, (top.cells.filter fun c => c.type == instantiator) = [cell] ∧
        ∀ c ∈ b.cores, c.FullyWired b.subsystem rules cell)) ∧
    ∀ cell, (top.cells.filter fun c => c.type == instantiator) = [cell] →
      (b.wire (some top) instantiator rules).bench =
        ⟨b.subsystem, b.cores.map fun c => { c with
          probes := Site.coreSignal ⟨top, b.subsystem, rules, cell⟩ b.subsystem c }⟩ := by
  have hNone : (b.cores.find? fun c => !c.probes.isEmpty) = none := by
    refine List.find?_eq_none.mpr fun c hc => ?_
    rw [hBare c hc]
    decide
  rw [← hInterfaces] at hOrder
  unfold wire wireAll
  dsimp only
  rw [hNone]
  dsimp only
  split
  · next cell hCell =>
    have hSite : (⟨top, some b.subsystem, rules, cell⟩ : Site).subsystem = some b.subsystem := rfl
    obtain ⟨hCores, ok, hResult, hOk⟩ := Site.wireCores_exact hSite hBus hOrder
    rw [hResult]
    dsimp only
    refine ⟨⟨_, rfl, ?_⟩, fun cell' hCell' => ?_⟩
    · -- the conjunction over the probes and the look at the signals, taken core by core
      rw [Bool.and_eq_true, hOk, checkWired_value, hCores, List.forall_mem_map, ← forall₂_and]
      constructor
      · intro h
        exact ⟨cell, hCell, fun c hc => (Core.fullyWired_iff (hBus c hc)).mpr (h c hc)⟩
      · rintro ⟨cell', hCell', h⟩ c hc
        rw [hCell] at hCell'
        cases hCell'
        exact (Core.fullyWired_iff (hBus c hc)).mp (h c hc)
    · rw [hCell] at hCell'
      cases hCell'
      rw [hCores]
  · next hCells =>
    refine ⟨⟨false, rfl, iff_of_false (by decide) ?_⟩, fun cell hCell => absurd hCell (hCells cell)⟩
    rintro ⟨cell, hCell, -⟩
    exact hCells cell hCell

/-- The three cores of the paired bench are fully wired to the wrapper. The first one gets four fragments
for its two probes, and the bridge nineteen wires. -/
theorem pairedBench_wired : ∃ b cell,
    (pairedBench.crossCheck (List.replicate 3 "ocla_debug_subsystem")).bench = b ∧
      (b.cores.map fun c => (c.isBridge, c.probeOrder)) = [(false, [0, 2]), (false, [1]), (true, [])] ∧
      (pairedTop.cells.filter fun c => c.type == "wrapper") = [cell] ∧
      (∀ c ∈ b.cores, c.FullyWired b.subsystem {} cell) ∧
      ((b.wire (some pairedTop) "wrapper" {}).bench.cores.map fun c => c.probes.length) = [4, 1, 19] := by
  have hPassed : ((pairedBench.crossCheck (List.replicate 3 "ocla_debug_subsystem")).bench.wire
      (some pairedTop) "wrapper" {}).result = .ok true := by
    decide +kernel
  obtain ⟨⟨verdict, hResult, hVerdict⟩, -⟩ := Bench.wire_exact
    (pairedBench.crossCheck (List.replicate 3 "ocla_debug_subsystem")).bench pairedTop "wrapper" {}
    (by decide +kernel) (by decide +kernel) (by decide +kernel) (by decide +kernel)
  obtain ⟨cell, hCell, hAll⟩ := hVerdict.mp (Except.ok.inj (hResult.symm.trans hPassed))
  exact ⟨_, cell, rfl, by decide +kernel, hCell, hAll, by decide +kernel⟩

end ProbeAtlas
