import Mathlib.Algebra.BigOperators.Group.List.Basic
import Mathlib.Algebra.Ring.Nat
import ProbeAtlas.Proofs.ReportConsistency

/-!
# ProbeAtlas — probes lie in the signal where the report says

A report gives every probe an offset and a width, and lists the fragments of a core's signal. The
offsets count from the least significant probe upwards, while wiring puts the most significant probe
first, and the fragments of one connection stand most significant first as well. `Carries` says that
the two orders fit together: the fragments that have a bit in the interval of a probe lie in it as a
whole, and they are the fragments of what the probe's port is connected to.

Main result: `Design.analyze_carries` — this holds for every probe of every native core in every report
on a design that qualified.
-/

namespace ProbeAtlas

-- ---------------------------------------------------------------------------
-- Fragments at their places
-- ---------------------------------------------------------------------------

/-- A fragment and the position of its least significant bit in a signal. -/
structure Placed where
  fragment : Fragment
  start : Nat
deriving DecidableEq, Repr

namespace Placed

/-- The position behind the most significant bit. -/
def stop (p : Placed) : Nat :=
  p.start + p.fragment.width

/-- Whether it has a bit among the `width` bits from `offset` on. -/
def meets (offset width : Nat) (p : Placed) : Bool :=
  offset < p.stop && p.start < offset + width

def raise (n : Nat) (p : Placed) : Placed :=
  { p with start := n + p.start }

@[simp] theorem start_raise (n : Nat) (p : Placed) : (p.raise n).start = n + p.start := rfl

@[simp] theorem stop_raise (n : Nat) (p : Placed) : (p.raise n).stop = n + p.stop :=
  Nat.add_assoc ..

theorem meets_iff {offset width : Nat} {p : Placed} :
    p.meets offset width = true ↔ offset < p.stop ∧ p.start < offset + width := by
  rw [meets, Bool.and_eq_true, decide_eq_true_eq, decide_eq_true_eq]

end Placed

namespace Fragment

/-- The fragments of a signal at their places. The last one is the least significant, at position
zero, and every other one lies above those behind it. -/
def placed : List Fragment → List Placed
  | [] => []
  | f :: fs => ⟨f, totalWidth fs⟩ :: placed fs

/-- The fragments of a signal that have a bit among the `width` bits from `offset` on. -/
def occupying (offset width : Nat) (signal : List Fragment) : List Placed :=
  (placed signal).filter (Placed.meets offset width)

theorem map_fragment_placed (fs : List Fragment) : (placed fs).map Placed.fragment = fs := by
  induction fs with
  | nil => rfl
  | cons f fs ih => rw [placed, List.map_cons, ih]

theorem placed_append (fs gs : List Fragment) :
    placed (fs ++ gs) = (placed fs).map (Placed.raise (totalWidth gs)) ++ placed gs := by
  induction fs with
  | nil => rfl
  | cons f fs ih =>
    rw [List.cons_append, placed, ih, totalWidth_append, placed, List.map_cons, List.cons_append,
      Placed.raise, Nat.add_comm]

/-- No fragment reaches beyond the signal. -/
theorem stop_le_totalWidth {fs : List Fragment} {p : Placed} (hp : p ∈ placed fs) :
    p.stop ≤ totalWidth fs := by
  induction fs with
  | nil => cases hp
  | cons f fs ih =>
    rw [totalWidth_cons]
    rcases List.mem_cons.mp hp with rfl | hp
    · exact Nat.le_of_eq (Nat.add_comm ..)
    · exact Nat.le_trans (ih hp) (Nat.le_add_left ..)

/-- **A part of a signal occupies its own bits and no others.** -/
theorem occupying_append (hi mid lo : List Fragment) (hPos : ∀ f ∈ mid, 0 < f.width) :
    occupying (totalWidth lo) (totalWidth mid) (hi ++ mid ++ lo) =
      (placed mid).map (Placed.raise (totalWidth lo)) := by
  have hAbove : ((placed hi).map (Placed.raise (totalWidth (mid ++ lo)))).filter
      (Placed.meets (totalWidth lo) (totalWidth mid)) = [] := by
    refine List.filter_eq_nil_iff.mpr fun p hp hMeets => ?_
    obtain ⟨r, -, rfl⟩ := List.mem_map.mp hp
    rw [Placed.meets_iff, Placed.start_raise, totalWidth_append] at hMeets
    omega
  have hWithin : ((placed mid).map (Placed.raise (totalWidth lo))).filter
      (Placed.meets (totalWidth lo) (totalWidth mid)) =
        (placed mid).map (Placed.raise (totalWidth lo)) := by
    refine List.filter_eq_self.mpr fun p hp => ?_
    obtain ⟨r, hr, rfl⟩ := List.mem_map.mp hp
    have hStop := stop_le_totalWidth hr
    have hWidth : 0 < r.fragment.width := hPos _ (map_fragment_placed mid ▸ List.mem_map_of_mem hr)
    rw [Placed.stop] at hStop
    rw [Placed.meets_iff, Placed.stop_raise, Placed.start_raise, Placed.stop]
    omega
  have hBelow : (placed lo).filter (Placed.meets (totalWidth lo) (totalWidth mid)) = [] := by
    refine List.filter_eq_nil_iff.mpr fun p hp hMeets => ?_
    have hStop := stop_le_totalWidth hp
    rw [Placed.meets_iff] at hMeets
    omega
  rw [occupying, List.append_assoc, placed_append, placed_append, List.filter_append,
    List.filter_append, hAbove, hWithin, hBelow, List.nil_append, List.append_nil]

end Fragment

-- ---------------------------------------------------------------------------
-- Probes in the signal of their core
-- ---------------------------------------------------------------------------

/-- In the signal the probe takes exactly the place of the given bits of the top module. -/
structure Carries (top : Module) (signal : List Fragment) (info : ProbeInfo) (bits : List Bit) :
    Prop where
  width     : bits.length = info.width
  whole     : ∀ p ∈ Fragment.occupying info.offset info.width signal,
                info.offset ≤ p.start ∧ p.stop ≤ info.offset + info.width
  fragments : (Fragment.occupying info.offset info.width signal).map Placed.fragment =
                top.fragments bits

/-- The fragments of a connection between any others. -/
theorem carries_of_split {top : Module} {bits : List Bit} {info : ProbeInfo} (hi lo : List Fragment)
    (hOffset : info.offset = Fragment.totalWidth lo) (hWidth : info.width = bits.length) :
    Carries top (hi ++ top.fragments bits ++ lo) info bits := by
  have hTotal : info.width = Fragment.totalWidth (top.fragments bits) := by
    rw [hWidth, Module.totalWidth_fragments]
  have hOccupying := Fragment.occupying_append hi (top.fragments bits) lo
    fun _ hf => Module.width_pos_of_mem_fragments hf
  rw [← hOffset, ← hTotal] at hOccupying
  refine ⟨hWidth.symm, ?_, ?_⟩
  · intro p hp
    rw [hOccupying] at hp
    obtain ⟨r, hr, rfl⟩ := List.mem_map.mp hp
    have hStop := Fragment.stop_le_totalWidth hr
    rw [Placed.start_raise, Placed.stop_raise]
    omega
  · rw [hOccupying, List.map_map]
    exact Fragment.map_fragment_placed _

namespace Site

variable {site : Site} {s : Subsystem}

theorem Connected.width_eq {probe : Nat} {bits : List Bit} (hSite : site.subsystem = some s)
    (h : site.Connected probe) (hBits : site.cell.connection? (site.rules.portOf probe) = some bits) :
    s.probeWidth probe = bits.length := by
  obtain ⟨bits', hBits', hWidth⟩ := h
  rw [hBits] at hBits'
  cases hBits'
  rw [hSite] at hWidth
  obtain ⟨s', hs', hWidth⟩ := except_bind_eq_ok.mp hWidth
  cases hs'
  obtain ⟨itf, hItf, hWidth⟩ := except_bind_eq_ok.mp hWidth
  rw [← Subsystem.probeWidth_of_interface hItf]
  exact Except.ok.inj hWidth

/-- Probes take as many bits in a signal as they are declared to. -/
theorem totalWidth_signals (hSite : site.subsystem = some s) {probes : List Nat}
    (h : ∀ p ∈ probes, site.Connected p) :
    Fragment.totalWidth (probes.flatMap site.signal) = s.span probes := by
  have hEach : ∀ p ∈ probes, Fragment.totalWidth (site.signal p) = s.probeWidth p := by
    intro p hp
    obtain ⟨bits, hBits, -⟩ := h p hp
    rw [signal_of_connection hBits, Module.totalWidth_fragments, (h p hp).width_eq hSite hBits]
  rw [Fragment.totalWidth_flatMap, List.map_congr_left hEach, Subsystem.span]

/-- A probe lies above the probes before it, in a signal that has the last probe first. -/
theorem carries_probe (hSite : site.subsystem = some s) {before after : List Nat} {p : Nat}
    {info : ProbeInfo} (h : ∀ q ∈ before ++ p :: after, site.Connected q)
    (hOffset : info.offset = s.span before) (hWidth : info.width = s.probeWidth p) :
    ∃ bits, site.cell.connection? (site.rules.portOf p) = some bits ∧
      Carries site.top ((before ++ p :: after).reverse.flatMap site.signal) info bits := by
  have hMem : p ∈ before ++ p :: after := List.mem_append_right _ (List.mem_cons_self ..)
  obtain ⟨bits, hBits, -⟩ := h p hMem
  have hSignal : (before ++ p :: after).reverse.flatMap site.signal =
      after.reverse.flatMap site.signal ++ site.top.fragments bits ++
        before.reverse.flatMap site.signal := by
    rw [← signal_of_connection hBits]
    simp
  have hBelow : ∀ q ∈ before.reverse, site.Connected q := fun q hq =>
    h q (List.mem_append_left _ (List.mem_reverse.mp hq))
  refine ⟨bits, hBits, ?_⟩
  rw [hSignal]
  apply carries_of_split
  · rw [hOffset, totalWidth_signals hSite hBelow]
    exact Subsystem.span_perm (List.reverse_perm before).symm
  · rw [hWidth, (h p hMem).width_eq hSite hBits]

end Site

-- ---------------------------------------------------------------------------
-- The report
-- ---------------------------------------------------------------------------

/-- The signal of a native core that qualified is read off the ports of its probes. -/
theorem Analysis.Qualified.signal_native {rules : Rules} {d : Design} {b found : Bench} {l : Layout}
    {t : Target} (h : Qualified rules d b found l t) {c : Core} (hc : c ∈ b.cores)
    (hNative : c.isBridge = false) :
    (∀ p ∈ c.probeOrder, (t.site rules b).Connected p) ∧
      c.probes = c.probeOrder.reverse.flatMap (t.site rules b).signal := by
  obtain ⟨c', -, hWires⟩ := exists_of_mem_right h.wired hc
  exact hWires.native hNative

/-- **Every probe lies in the signal of its core where the report says.** The design that the analysis
leaves is flat, the instantiator of the subsystem has one cell in its top module, and a probe occupies
the fragments of what its port of that cell is connected to. -/
theorem Design.analyze_carries {d : Design} {rules : Rules} {finding : Finding} {q : QualifiedSection}
    (h : (d.analyze rules).outcome = .ok finding) (hq : finding.report.qualified = some q) :
    ∃ b path boxed top cell, (Analysis.stages rules d).result = .ok (some b) ∧
      (d.uniquePath? b.subsystem.name).value = some path ∧
      d.blackbox path.instantiator = .ok boxed ∧
      boxed.flatten = ((d.analyze rules).design, none) ∧
      (d.analyze rules).design.topModule? = some top ∧
      (top.cells.filter fun c => c.type == path.instantiator) = [cell] ∧
      List.Forall₂ (fun (sec : CoreSection) (c : Core) =>
        (sec.probeInfo = none ↔ c.isBridge = true) ∧
        ∀ infos, sec.probeInfo = some infos → ∀ info ∈ infos, ∃ p bits, info.index = p + 1 ∧
          cell.connection? (rules.portOf p) = some bits ∧ Carries top c.probes info bits)
        q.cores b.cores := by
  obtain ⟨log, bench, hStages, hDesign, hReport, -⟩ := Design.analyze_eq_ok h
  cases bench with
  | none =>
    rw [← Except.ok.inj hReport] at hq
    cases hq
  | some b =>
    obtain ⟨found, l, t, hQualified⟩ := Analysis.stages_qualified hStages
    have hHosts := hQualified.hosts
    have hSound := hQualified.fits.sound
    obtain ⟨boxed, hBoxed, hFlat⟩ := hQualified.flattened
    have hName : b.subsystem.name = found.subsystem.name := by
      rw [hQualified.settled]
      rfl
    rw [hQualified.report_sections hReport] at hq
    cases hq
    refine ⟨b, t.path, boxed, t.top, t.cell, hStages, hName ▸ hQualified.path, hBoxed,
      hDesign ▸ hFlat, hDesign ▸ hQualified.top, hQualified.cell, ?_⟩
    rw [List.forall₂_map_left_iff, List.forall₂_same]
    intro c hc
    rw [Subsystem.sectionOf]
    dsimp only
    cases hBridge : c.isBridge with
    | true => exact ⟨by simp, by simp⟩
    | false =>
      refine ⟨by simp, fun infos hInfos info hInfo => ?_⟩
      rw [if_neg (by decide)] at hInfos
      cases hInfos
      obtain ⟨p, hp, rfl⟩ := List.mem_map.mp hInfo
      obtain ⟨before, after, hOrder⟩ := List.append_of_mem hp
      obtain ⟨hConnected, hSignal⟩ := hQualified.signal_native hc hBridge
      -- the layout has put the probe above the ones before it
      have hOwner := hSound.offset c.index before p after (hOrder ▸ hHosts.order c hc)
      have hOffset : (found.subsystem.infoOf l p).offset = b.subsystem.span before := by
        rw [Subsystem.infoOf, hOwner, hQualified.settled]
        rfl
      have hWidth : (found.subsystem.infoOf l p).width = b.subsystem.probeWidth p := by
        rw [Subsystem.infoOf, hQualified.settled]
        rfl
      rw [hOrder] at hConnected
      obtain ⟨bits, hBits, hCarries⟩ := Site.carries_probe rfl hConnected hOffset hWidth
      rw [← hOrder, ← hSignal] at hCarries
      exact ⟨p, bits, rfl, hBits, hCarries⟩

/-- In the sample the second probe lies below the first one. -/
theorem sampleDesign_carries : ∃ (finding : Finding) (q : QualifiedSection) (b : Bench)
    (top : Module) (cell : Cell),
    (sampleDesign.analyze {}).outcome = .ok finding ∧ finding.report.qualified = some q ∧
      q.cores.map CoreSection.probeInfo = [some [⟨2, 0, 2⟩, ⟨1, 2, 3⟩], none] ∧
      (sampleDesign.analyze {}).design.topModule? = some top ∧
      List.Forall₂ (fun (sec : CoreSection) (c : Core) =>
        (sec.probeInfo = none ↔ c.isBridge = true) ∧
        ∀ infos, sec.probeInfo = some infos → ∀ info ∈ infos, ∃ p bits, info.index = p + 1 ∧
          cell.connection? (Rules.portOf {} p) = some bits ∧ Carries top c.probes info bits)
        q.cores b.cores := by
  obtain ⟨finding, q, hOutcome, -, hq, hInfo⟩ := sampleDesign_qualifies
  obtain ⟨b, -, -, top, cell, -, -, -, -, hTop, -, hCarries⟩ := Design.analyze_carries hOutcome hq
  exact ⟨finding, q, b, top, cell, hOutcome, hq, hInfo, hTop, hCarries⟩

end ProbeAtlas
