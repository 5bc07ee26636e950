import ProbeAtlas.Proofs.CrossCheck
import ProbeAtlas.Proofs.Disqualification
import ProbeAtlas.Proofs.SignalLayout

/-!
# ProbeAtlas — what is cross-checked and wired can be cut

The width of a core's signal is accounted for three times. The cross-check compares the core's number
of probes with the widths that the layout, or the buses of a bridge, give it. Wiring compares every
port with the declared width of its probe. The last stage walks over the fragments of the signal and
cuts it into probes. After the first two accounts have come out even, so does the third, whatever the
order of the probes and however the connections fall into fragments.

Main results:

* `Bench.checkCut_of_wired` — every core that has been cross-checked and wired can be cut.
* `Bench.wired_never_disqualified` — so the last stage of an analysis never turns a core down.
-/

namespace ProbeAtlas

-- ---------------------------------------------------------------------------
-- Cutting
-- ---------------------------------------------------------------------------

/-- Fragments without an empty one are taken off as a whole. -/
theorem takeBits_append {fs : List Fragment} (hPos : ∀ f ∈ fs, 0 < f.width) (rest : List Fragment) :
    takeBits (fs ++ rest) (Fragment.totalWidth fs) = .rest rest := by
  induction fs with
  | nil => cases rest <;> rfl
  | cons f fs ih =>
    have hf : 0 < f.width := hPos f (List.mem_cons_self ..)
    have hRest := ih fun g hg => hPos g (List.mem_cons_of_mem _ hg)
    rw [Fragment.totalWidth_cons, List.cons_append, takeBits, if_neg (by omega), if_neg (by omega),
      Nat.add_sub_cancel_left, hRest]

namespace Site

variable {site : Site}

/-- The port of a connected probe carries the declared width, in fragments that are not empty. -/
theorem Connected.signal_width {probe : Nat} (h : site.Connected probe) :
    Subsystem.widthOf site.subsystem probe = .ok (Fragment.totalWidth (site.signal probe)) ∧
      ∀ f ∈ site.signal probe, 0 < f.width := by
  obtain ⟨bits, hBits, hWidth⟩ := h
  rw [signal_of_connection hBits, Module.totalWidth_fragments]
  exact ⟨hWidth, fun f hf => Module.width_pos_of_mem_fragments hf⟩

/-- **The signals of connected probes one after another can be cut into these probes.** -/
theorem cutProbes_signals {probes : List Nat} (h : ∀ p ∈ probes, site.Connected p) (level : Int) :
    (cutProbes site.subsystem level probes (probes.flatMap site.signal)).result = .ok true := by
  induction probes with
  | nil => rfl
  | cons p ps ih =>
    obtain ⟨hWidth, hPos⟩ := (h p (List.mem_cons_self ..)).signal_width
    have hRest := ih fun q hq => h q (List.mem_cons_of_mem _ hq)
    rw [List.flatMap_cons, cutProbes, Run.result_bind_eq_ok]
    refine ⟨_, hWidth, ?_⟩
    rw [takeBits_append hPos]
    exact hRest

end Site

/-- A core whose signal adds up, and which is a bridge or can be cut, passes. -/
theorem Core.checkCut_passed {c : Core} {s : Option Subsystem} {level : Int}
    (hTotal : Fragment.totalWidth c.probes = c.probeCount)
    (hCut : c.isBridge = false → (cutProbes s level c.probeOrder.reverse c.probes).result = .ok true) :
    (c.checkCut s level).result = .ok true := by
  unfold checkCut
  dsimp only
  rw [if_neg (not_not.mpr hTotal)]
  cases hBridge : c.isBridge with
  | true => rfl
  | false => exact hCut hBridge

/-- Cutting posts nothing unless it fails. -/
theorem cutProbes_log {s : Option Subsystem} {level : Int} {probes : List Nat}
    {fragments : List Fragment} (h : (cutProbes s level probes fragments).result = .ok true) :
    (cutProbes s level probes fragments).log = [] := by
  induction probes generalizing fragments with
  | nil =>
    rw [cutProbes] at h ⊢
    split at h
    · next hNone => rw [if_pos hNone, Run.log_pure]
    · cases h
  | cons p ps ih =>
    rw [cutProbes] at h ⊢
    obtain ⟨width, hWidth, h⟩ := Run.result_bind_eq_ok.mp h
    rw [Run.log_bind, hWidth, Run.log_ofExcept, List.nil_append]
    dsimp only
    split at h
    · exact ih h
    · cases h
    · cases h

theorem Core.checkCut_log {c : Core} {s : Option Subsystem} {level : Int}
    (h : (c.checkCut s level).result = .ok true) : (c.checkCut s level).log = [] := by
  unfold checkCut at h ⊢
  dsimp only at h ⊢
  split at h
  · cases h
  · next hTotal =>
    rw [if_neg hTotal]
    split at h
    · next hBridge => rw [if_pos hBridge, Run.log_pure]
    · next hNative =>
      rw [if_neg hNative]
      exact cutProbes_log h

-- ---------------------------------------------------------------------------
-- Widths of signals
-- ---------------------------------------------------------------------------

/-- The wires of some buses are as wide as the buses together. -/
theorem BusKind.totalWidth_fragments (kind : BusKind) (buses : Nat) :
    Fragment.totalWidth (kind.fragments buses) = buses * kind.width := by
  rw [fragments, Fragment.totalWidth_flatMap]
  -- every bus is as wide as its kind, whatever its signals are called
  refine (congrArg List.sum (List.map_congr_left (g := fun _ => kind.width) fun i _ => ?_)).trans
    (by simp)
  rw [width]
  induction kind.signals with
  | nil => rfl
  | cons s rest ih =>
    rw [List.map_cons, Fragment.totalWidth_cons, ih]
    rfl

/-- The signal of a bridge core is that of the buses. -/
theorem Site.wireCore_bridge {site : Site} {c : Core} {found : List Fragment} {s : Subsystem}
    {bus : BusKind} (hSite : site.subsystem = some s) (hBus : s.bus = some bus)
    (hBridge : c.isBridge = true) (h : (site.wireCore c).result = .ok (found, true)) :
    found = bus.fragments s.busCount := by
  unfold wireCore at h
  rw [hBridge, if_pos rfl, hSite] at h
  obtain ⟨s', hs', h⟩ := Run.result_bind_eq_ok.mp h
  cases hs'
  obtain ⟨bus', hBus', h⟩ := Run.result_bind_eq_ok.mp h
  rw [Run.result_ofExcept, Subsystem.knownBus, hBus] at hBus'
  cases hBus'
  cases h
  rfl

/-- The layout gives an interface the width of the probes it lists. -/
theorem Layout.Sound.widthAt_eq {s : Subsystem} {l : Layout} (h : l.Sound s) (i : Nat) :
    l.widthAt i = s.span ((l.order[i]?).getD []) := by
  rw [widthAt, h.coreWidth_eq, List.getElem?_map]
  cases l.order[i]? with
  | none => rfl
  | some order => rfl

/-- **Cross-checked widths and wired widths are the same.** -/
theorem Bench.Agreement.totalWidth_wired {b : Bench} {instantiators : List String} {l : Layout}
    (h : b.Agreement instantiators l) {site : Site} (hSite : site.subsystem = some (b.settled l).subsystem)
    {c c' : Core} (hc : c ∈ b.cores) (hWires : site.Wires (c.settle b.subsystem l) c') :
    Fragment.totalWidth c'.probes = c'.probeCount := by
  have hWidths := h.widths c hc
  obtain ⟨found, hRun, rfl⟩ := hWires
  show Fragment.totalWidth found = c.probeCount
  unfold Core.WidthAgrees at hWidths
  cases hBridge : (c.place b.subsystem l).isBridge with
  | true =>
    rw [hBridge, if_pos rfl] at hWidths
    obtain ⟨bus, hBus, hCount, -⟩ := hWidths
    rw [Site.wireCore_bridge hSite hBus hBridge hRun, BusKind.totalWidth_fragments]
    exact hCount.symm
  | false =>
    rw [hBridge, if_neg (by decide)] at hWidths
    obtain ⟨hConnected, rfl⟩ := Site.wireCore_native hBridge hRun
    have hBack : ∀ p ∈ (c.settle b.subsystem l).probeOrder.reverse, site.Connected p :=
      fun p hp => hConnected p (List.mem_reverse.mp hp)
    have hSpan := Subsystem.span_perm (s := b.subsystem)
      (List.reverse_perm (c.settle b.subsystem l).probeOrder)
    calc Fragment.totalWidth ((c.settle b.subsystem l).probeOrder.reverse.flatMap site.signal)
        = b.subsystem.span (c.settle b.subsystem l).probeOrder.reverse :=
          Site.totalWidth_signals hSite hBack
      _ = b.subsystem.span ((l.order[c.index]?).getD []) := hSpan
      _ = l.widthAt c.index := ((Bench.layout_fits h.layout).sound.widthAt_eq c.index).symm
      _ = c.probeCount := hWidths.symm

-- ---------------------------------------------------------------------------
-- The last stage
-- ---------------------------------------------------------------------------

/-- **Every core that has been cross-checked and wired can be cut.** -/
theorem Bench.checkCut_of_wired {b : Bench} {instantiators : List String} {top : Option Module}
    {instantiator : String} {rules : Rules} (hCheck : (b.crossCheck instantiators).result = .ok true)
    (hWire : ((b.crossCheck instantiators).bench.wire top instantiator rules).result = .ok true)
    {c : Core}
    (hc : c ∈ ((b.crossCheck instantiators).bench.wire top instantiator rules).bench.cores)
    (level : Int) :
    (c.checkCut (some (b.crossCheck instantiators).bench.subsystem) level).result = .ok true := by
  obtain ⟨l, hAgreement, hBench⟩ := crossCheck_passed hCheck
  rw [hBench] at hWire hc ⊢
  cases top with
  | none =>
    unfold wire wireAll at hWire
    dsimp only at hWire
    split at hWire <;> cases hWire
  | some top =>
    obtain ⟨cell, -, -, hWired⟩ := wire_passed hWire
    obtain ⟨settled, hSettled, hWires⟩ := exists_of_mem_right hWired hc
    obtain ⟨c₀, hc₀, rfl⟩ := List.mem_map.mp hSettled
    refine Core.checkCut_passed (hAgreement.totalWidth_wired rfl hc₀ hWires) fun hNative => ?_
    obtain ⟨hConnected, hSignal⟩ := hWires.native hNative
    rw [hSignal]
    exact Site.cutProbes_signals (fun p hp => hConnected p (List.mem_reverse.mp hp)) level

namespace Analysis

/-- Cores that can be cut are finished without a disqualification. -/
theorem disqualification_notMem_finishAll {s : Subsystem} {cores : List Core}
    (h : ∀ c ∈ cores, (c.checkCut (some s) 3).result = .ok true) :
    disqualification ∉ (finishAll s cores).log := by
  induction cores with
  | nil => simp [finishAll]
  | cons c cs ih =>
    rw [finishAll]
    have hCut := h c (List.mem_cons_self ..)
    have hFirst := disqualification_notMem_finish hCut (Core.checkCut_log hCut)
    have hRest := ih fun c' hc' => h c' (List.mem_cons_of_mem _ hc')
    exact Run.notMem_log_bind hFirst fun ok _ => Run.notMem_log_bind hRest fun okRest _ => by simp

/-- From a bench that has been cross-checked no stage leads to a disqualification. -/
theorem disqualification_notMem_onHierarchy {b : Bench} {instantiators : List String}
    (hCheck : (b.crossCheck instantiators).result = .ok true) (rules : Rules) (d : Design)
    (instantiator : String) :
    disqualification ∉ (onHierarchy rules d (b.crossCheck instantiators).bench instantiator).log := by
  have hFlat : ∀ flat : Design, disqualification ∉
      (onFlat rules flat (b.crossCheck instantiators).bench instantiator).log := by
    intro flat
    unfold onFlat
    split
    · simp [Progress.halted]
    · next top hTop =>
      dsimp only [Progress.after]
      rw [List.mem_append, not_or]
      refine ⟨by simp, ?_⟩
      split
      · simp [Progress.halted]
      · simp [Progress.refused]
      · next hWire =>
        have hFinish := disqualification_notMem_finishAll fun c hc =>
          Bench.checkCut_of_wired hCheck hWire hc 3
        split <;> exact hFinish
  unfold onHierarchy
  dsimp only [Progress.after]
  rw [List.mem_append, not_or]
  refine ⟨by simp, ?_⟩
  split
  · simp [Progress.halted]
  · dsimp only
    rw [List.mem_append, not_or]
    refine ⟨by simp, ?_⟩
    split
    · simp [Progress.halted]
    · exact hFlat _

theorem disqualification_notMem_onBench (rules : Rules) (d : Design) (b : Bench) :
    disqualification ∉ (onBench rules d b).log := by
  have hHolders : disqualification ∉ (b.cores.mapM fun c => d.holders c.name).log := by
    apply Logged.notMem_log_mapM
    simp
  unfold onBench
  dsimp only [Progress.after]
  rw [List.mem_append, not_or]
  refine ⟨by simp, ?_⟩
  split
  · simp [Progress.refused]
  · dsimp only
    rw [List.mem_append, not_or]
    refine ⟨hHolders, ?_⟩
    split
    · simp [Progress.refused]
    · dsimp only
      rw [List.mem_append, not_or]
      refine ⟨by simp, ?_⟩
      split
      · simp [Progress.halted]
      · simp [Progress.refused]
      · next hCheck => exact disqualification_notMem_onHierarchy hCheck rules d _

theorem disqualification_notMem_stages (rules : Rules) (d : Design) :
    disqualification ∉ (stages rules d).log := by
  unfold stages
  dsimp only [Progress.after]
  split
  · simp
  · dsimp only
    rw [List.mem_append, not_or]
    refine ⟨by simp, ?_⟩
    split
    · exact disqualification_notMem_onBench rules d _
    · simp [Progress.refused]

end Analysis

/-- **What is cross-checked and wired is never disqualified.** Every core can then be cut. The last
stage would post a disqualification for a core that cannot, but the log of no analysis has one. -/
theorem Bench.wired_never_disqualified :
    (∀ (b : Bench) (instantiators : List String) (top : Option Module) (instantiator : String)
      (rules : Rules), (b.crossCheck instantiators).result = .ok true →
      ((b.crossCheck instantiators).bench.wire top instantiator rules).result = .ok true →
      ∀ c ∈ ((b.crossCheck instantiators).bench.wire top instantiator rules).bench.cores,
      ∀ level : Int,
        (c.checkCut (some (b.crossCheck instantiators).bench.subsystem) level).result = .ok true) ∧
    (∀ (s : Subsystem) (c : Core), (Analysis.finish s c).result = .ok false →
      Analysis.disqualification ∈ (Analysis.finish s c).log) ∧
    ∀ (d : Design) (rules : Rules), Analysis.disqualification ∉ (d.analyze rules).log := by
  refine ⟨?_, fun s c => Analysis.disqualification_mem_finish, ?_⟩
  · intro b instantiators top instantiator rules hCheck hWire c hc level
    exact checkCut_of_wired hCheck hWire hc level
  · intro d rules
    have hStages := Analysis.disqualification_notMem_stages rules d
    unfold Design.analyze
    dsimp only
    split
    · simp
    · split
      · simp [hStages]
      · split <;> simp [hStages]

/-- A top module with one cell to which the probes of the paired bench are connected. -/
def pairedTop : Module :=
  { name := "top", attributes := [], parameters := [], ports := []
    cells := [⟨"debug", "wrapper",
      [("probe_1", [.net 2, .net 3, .const .one, .net 4]), ("probe_2", [.net 4]),
        ("probe_3", [.net 5, .net 6])]⟩]
    netnames := [⟨"state", [.net 2, .net 3, .net 4], false, false⟩,
      ⟨"count", [.net 5, .net 6], false, false⟩]
    blackbox := false }

/-- The first core of the paired bench gets four fragments for two probes and can be cut, and so can
the other two. -/
theorem pairedBench_cut : ∃ checked wired : Step,
    pairedBench.crossCheck (List.replicate 3 "ocla_debug_subsystem") = checked ∧
      checked.bench.wire (some pairedTop) "wrapper" {} = wired ∧ checked.result = .ok true ∧
      wired.result = .ok true ∧ (wired.bench.cores.map fun c => c.probes.length) = [4, 1, 19] ∧
      ∀ c ∈ wired.bench.cores, (c.checkCut (some checked.bench.subsystem) 3).result = .ok true := by
  have hCheck : (pairedBench.crossCheck
      (List.replicate 3 "ocla_debug_subsystem")).result = .ok true := by
    decide +kernel
  have hWire : ((pairedBench.crossCheck (List.replicate 3 "ocla_debug_subsystem")).bench.wire
      (some pairedTop) "wrapper" {}).result = .ok true := by
    decide +kernel
  refine ⟨_, _, rfl, rfl, hCheck, hWire, by decide +kernel, fun c hc => ?_⟩
  exact Bench.wired_never_disqualified.1 _ _ _ _ _ hCheck hWire c hc 3

end ProbeAtlas
