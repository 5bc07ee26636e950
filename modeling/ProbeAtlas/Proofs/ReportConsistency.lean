import Mathlib.Algebra.BigOperators.Group.List.Basic
import Mathlib.Algebra.Ring.Nat
import ProbeAtlas.Proofs.Hosting
import ProbeAtlas.Proofs.ReportDocument

/-!
# ProbeAtlas — reports are consistent

A report about a design that qualified has a section for every core and one for the subsystem. The
sections were written from different parameters, by modules that need not know of each other, but
together they have to make sense: `QualifiedSection.Consistent` says what that means, purely in terms
of what the report shows. No single stage of the analysis checks it. For instance, that the width of
a probe nobody lists is zero follows from two sums that both have to equal `Probes_Sum`.

Main result: `Design.analyze_consistent` — a report is either without sections or consistent, and the
document has its sections as they are.
-/

namespace ProbeAtlas

-- ---------------------------------------------------------------------------
-- Consistent reports
-- ---------------------------------------------------------------------------

/-- The entry under the key is this number. -/
def Shows (entries : List (String × ParamValue)) (key : String) (n : Nat) : Prop :=
  Entries.get? entries key = some (.word32 n)

/-- The intervals of the listed probes follow each other from `start` up to `stop`. -/
def Tiles : Nat → List ProbeInfo → Nat → Prop
  | start, [], stop => start = stop
  | start, p :: ps, stop => p.offset = start ∧ Tiles (start + p.width) ps stop

namespace QualifiedSection

/-- All probes that the sections of the cores list. -/
def listed (q : QualifiedSection) : List ProbeInfo :=
  q.cores.flatMap fun c => c.probeInfo.getD []

/-- The sections agree with each other. The mode, the number of probes and the sum of widths are those
that the section of the subsystem shows; `counts` are the numbers of probes that the sections of the
cores show. -/
structure Consistent (q : QualifiedSection) (mode : Mode) (probes : Nat) (counts : List Nat) :
    Prop where
  showsMode   : Entries.get? q.subsystem "Mode" = some (.text mode.text)
  showsCores  : Shows q.subsystem "Cores" q.cores.length
  showsProbes : Shows q.subsystem "No_Probes" probes
  showsCounts : List.Forall₂ (fun c n => Shows c.params "NO_OF_PROBES" n) q.cores counts
  showsSum    : Shows q.subsystem "Probes_Sum" counts.sum
  index       : ∀ (i : Nat) c, q.cores[i]? = some c → Shows c.params "INDEX" i
  address     : ∀ (i : Nat) c, q.cores[i]? = some c →
                  Shows q.subsystem (Slot.addressKey i) c.address
  addresses   : (q.cores.map CoreSection.address).Nodup
  tiled       : List.Forall₂ (fun c n => ∀ info, c.probeInfo = some info → Tiles 0 info n)
                  q.cores counts
  numbered    : mode ≠ .bridge → (q.listed.map ProbeInfo.index).Perm (List.range' 1 probes)
  widths      : ∀ info ∈ q.listed, ∃ p, info.index = p + 1 ∧
                  Shows q.subsystem (Slot.widthKey p) info.width
  unlisted    : ∀ p < interfaceCount, p + 1 ∉ q.listed.map ProbeInfo.index →
                  Shows q.subsystem (Slot.widthKey p) 0
  native      : mode = .native → ∀ c ∈ q.cores, c.probeInfo ≠ none
  bridge      : mode ≠ .native → ∀ (i : Nat) c, q.cores[i]? = some c →
                  (c.probeInfo = none ↔ i + 1 = q.cores.length)

end QualifiedSection

-- ---------------------------------------------------------------------------
-- Sections
-- ---------------------------------------------------------------------------

/-- What a report says about a probe. -/
def Subsystem.infoOf (s : Subsystem) (l : Layout) (probe : Nat) : ProbeInfo :=
  { index := probe + 1
    offset := ((l.owner? probe).map Owner.offset).getD 0
    width := s.probeWidth probe }

/-- What a report says about a core. -/
def Subsystem.sectionOf (s : Subsystem) (l : Layout) (c : Core) : CoreSection :=
  { params := c.params.entries
    address := c.baseAddress
    probeInfo := if c.isBridge then none else some (c.probeOrder.map (s.infoOf l))
    signals := c.probes.map Fragment.signalName }

namespace Report

variable {s : Subsystem} {l : Layout}

theorem probeInfo_eq_ok (hLayout : s.layout = some l) {p : Nat} {info : ProbeInfo}
    (h : probeInfo s p = .ok info) : p < s.interfaces.length ∧ info = s.infoOf l p := by
  obtain ⟨itf, hItf, h⟩ := except_bind_eq_ok.mp h
  cases h
  rw [Subsystem.probeWidth_of_interface hItf, hLayout, Option.bind_some]
  exact ⟨(List.getElem?_eq_some_iff.mp (Subsystem.interface_eq_ok.mp hItf)).1, rfl⟩

theorem coreSection_eq_ok (hLayout : s.layout = some l) {c : Core} {sec : CoreSection}
    (h : coreSection s c = .ok sec) :
    (c.isBridge = false → ∀ p ∈ c.probeOrder, p < s.interfaces.length) ∧
      sec = s.sectionOf l c := by
  obtain ⟨info, hInfo, h⟩ := except_bind_eq_ok.mp h
  cases h
  unfold coreProbes at hInfo
  unfold Subsystem.sectionOf
  split at hInfo
  · next hBridge =>
    cases hInfo
    rw [if_pos hBridge]
    exact ⟨fun hNative => absurd hBridge (by rw [hNative]; decide), rfl⟩
  · next hNative =>
    obtain ⟨infos, hInfos, rfl⟩ := except_map_eq_ok.mp hInfo
    obtain ⟨hKnown, rfl⟩ := mapM_eq_ok_map (fun _ _ => probeInfo_eq_ok hLayout) hInfos
    rw [if_neg hNative]
    exact ⟨fun _ => hKnown, rfl⟩

/-- The report on a bench with cores has a section for each of them. -/
theorem ofBench_eq_ok {log : Log} {b : Bench} {r : Report} (hLayout : b.subsystem.layout = some l)
    (hSome : b.cores ≠ []) (h : ofBench log (some b) = .ok r) :
    r.qualified =
      some ⟨b.cores.map (b.subsystem.sectionOf l), b.subsystem.params.entries⟩ := by
  rw [ofBench, build, if_neg (by simpa using hSome)] at h
  obtain ⟨s, hs, h⟩ := except_bind_eq_ok.mp h
  cases hs
  obtain ⟨sections, hSections, h⟩ := except_bind_eq_ok.mp h
  obtain ⟨-, rfl⟩ := mapM_eq_ok_map (fun _ _ => coreSection_eq_ok hLayout) hSections
  cases h
  rfl

end Report

-- ---------------------------------------------------------------------------
-- Probes and their widths
-- ---------------------------------------------------------------------------

namespace Layout

variable {s : Subsystem} {l : Layout}

/-- The rest of an interface's probes lies behind the ones before it. -/
theorem Sound.tiles_from (h : l.Sound s) {i : Nat} (before rest : List Nat)
    (hOrder : l.order[i]? = some (before ++ rest)) :
    Tiles (s.span before) (rest.map (s.infoOf l)) (s.span (before ++ rest)) := by
  induction rest generalizing before with
  | nil =>
    rw [List.append_nil]
    exact rfl
  | cons p rest ih =>
    have hOwner := h.offset i before p rest hOrder
    rw [List.append_cons] at hOrder ⊢
    have hRest := ih (before ++ [p]) hOrder
    rw [Subsystem.span_append, Subsystem.span_cons, Subsystem.span_nil] at hRest
    refine ⟨?_, hRest⟩
    rw [Subsystem.infoOf, hOwner, Option.map_some, Option.getD_some]

/-- The probes of an interface fill its width without gap or overlap. -/
theorem Sound.tiles (h : l.Sound s) {i : Nat} {order : List Nat}
    (hOrder : l.order[i]? = some order) :
    Tiles 0 (order.map (s.infoOf l)) (l.widthAt i) := by
  have hTiles := h.tiles_from [] order hOrder
  rw [widthAt, h.coreWidth i order hOrder, Option.getD_some]
  exact hTiles

end Layout

-- ---------------------------------------------------------------------------
-- All sections together
-- ---------------------------------------------------------------------------

namespace Subsystem.Hosts

variable {s : Subsystem} {l : Layout} {cores : List Core}

/-- The sections of the cores list the probes in the order of the layout. -/
theorem listed_eq (h : s.Hosts l cores) (hTable : s.FromTable) (hFits : l.Fits s)
    (entries : List (String × ParamValue)) :
    QualifiedSection.listed ⟨cores.map (s.sectionOf l), entries⟩ =
      l.order.flatten.map (s.infoOf l) := by
  have hSection : ∀ c ∈ cores,
      (s.sectionOf l c).probeInfo.getD [] = c.probeOrder.map (s.infoOf l) := by
    intro c hc
    rw [sectionOf]
    dsimp only
    split
    · next hBridge => rw [h.probeOrder_bridge hTable hFits hc hBridge, List.map_nil, Option.getD_none]
    · rw [Option.getD_some]
  rw [← h.flatten_probeOrder hFits, List.map_flatten, List.map_map, QualifiedSection.listed,
    List.flatMap_def, List.map_map]
  exact congrArg List.flatten (List.map_congr_left hSection)

/-- The section of a core of a position. -/
theorem section_at (h : s.Hosts l cores) {i : Nat} {sec : CoreSection}
    (hi : (cores.map (s.sectionOf l))[i]? = some sec) :
    ∃ c ∈ cores, c.index = i ∧ sec = s.sectionOf l c := by
  rw [List.getElem?_map] at hi
  obtain ⟨c, hc, rfl⟩ := Option.map_eq_some_iff.mp hi
  exact ⟨c, List.mem_of_getElem? hc, h.index i c hc, rfl⟩

end Subsystem.Hosts

-- ---------------------------------------------------------------------------
-- Entries of the section of the subsystem
-- ---------------------------------------------------------------------------

namespace Subsystem.FromTable

variable {s : Subsystem}

/-- The width of a probe is shown under its key. -/
theorem shows_width (h : s.FromTable) {p : Nat} (hp : p < interfaceCount) :
    Shows s.params.entries (Slot.widthKey p) (s.probeWidth p) := by
  have hLt : p < s.interfaces.length := h.interfaces ▸ hp
  have hItf := h.interface p _ (List.getElem?_eq_getElem hLt)
  have hSlot : (⟨Slot.widthKey p, .word32⟩ : Slot) ∈ Slot.subsystemSlots :=
    List.mem_append_right _ (List.mem_flatMap.mpr ⟨p, List.mem_range.mpr hp, by simp⟩)
  rw [probeWidth, List.getElem?_eq_getElem hLt, Option.map_some, Option.getD_some]
  exact h.get?_entries _ hSlot hItf.probeWidth

theorem shows_address (h : s.FromTable) {i : Nat} (hi : i < interfaceCount) :
    Shows s.params.entries (Slot.addressKey i) (s.address i) := by
  have hLt : i < s.interfaces.length := h.interfaces ▸ hi
  have hItf := h.interface i _ (List.getElem?_eq_getElem hLt)
  have hSlot : (⟨Slot.addressKey i, .word32⟩ : Slot) ∈ Slot.subsystemSlots :=
    List.mem_append_right _ (List.mem_flatMap.mpr ⟨i, List.mem_range.mpr hi, by simp⟩)
  rw [address, List.getElem?_eq_getElem hLt, Option.map_some, Option.getD_some]
  exact h.get?_entries _ hSlot hItf.baseAddress

end Subsystem.FromTable

-- ---------------------------------------------------------------------------
-- The report
-- ---------------------------------------------------------------------------

/-- The sections of hosted cores are consistent. -/
theorem Subsystem.Hosts.consistent {s : Subsystem} {l : Layout} {cores : List Core}
    (h : s.Hosts l cores) (hTable : s.FromTable) (hFits : l.Fits s) :
    QualifiedSection.Consistent ⟨cores.map (s.sectionOf l), s.params.entries⟩ s.mode s.probeCount
      (cores.map Core.probeCount) := by
  have hListed := h.listed_eq hTable hFits s.params.entries
  have hIndices : (QualifiedSection.listed ⟨cores.map (s.sectionOf l), s.params.entries⟩).map
      ProbeInfo.index = l.order.flatten.map (· + 1) := by
    rw [hListed, List.map_map]
    rfl
  have hKnown : ∀ p ∈ l.order.flatten, p < interfaceCount := fun p hp =>
    lt_of_lt_of_le (hFits.sound.known p hp) (Nat.min_le_left _ _)
  have hSection : ∀ c, (s.sectionOf l c).probeInfo = none ↔ c.isBridge = true := by
    intro c
    rw [sectionOf]
    dsimp only
    split <;> simp_all
  refine
    { showsMode := hTable.get?_entries ⟨"Mode", .text⟩ (by decide) hTable.mode
      showsCores := ?showsCores
      showsProbes := hTable.get?_entries ⟨"No_Probes", .word32⟩ (by decide) hTable.probeCount
      showsCounts := ?showsCounts, showsSum := ?showsSum, index := ?index, address := ?address
      addresses := ?addresses, tiled := ?tiled, numbered := ?numbered, widths := ?widths, unlisted := ?unlisted
      native := ?native, bridge := ?bridge }
  case showsCores =>
    rw [List.length_map, h.count]
    exact hTable.get?_entries ⟨"Cores", .word32⟩ (by decide) hTable.coreCount
  case showsCounts =>
    rw [List.forall₂_map_left_iff, List.forall₂_map_right_iff, List.forall₂_same]
    intro c hc
    exact (h.fromTable c hc).get?_entries ⟨"NO_OF_PROBES", .word32⟩ (by decide)
      (h.fromTable c hc).probeCount
  case showsSum =>
    rw [h.sum_probeCount hTable hFits]
    exact hTable.get?_entries ⟨"Probes_Sum", .word32⟩ (by decide) hTable.probesSum
  case index =>
    intro i sec hi
    obtain ⟨c, hc, rfl, rfl⟩ := h.section_at hi
    exact (h.fromTable c hc).get?_entries ⟨"INDEX", .word32⟩ (by decide) (h.fromTable c hc).index
  case address =>
    intro i sec hi
    obtain ⟨c, hc, rfl, rfl⟩ := h.section_at hi
    rw [sectionOf, h.address c hc]
    exact hTable.shows_address (lt_of_lt_of_le (h.seats.index_lt hc) hTable.shaped.coreCount_le)
  case addresses =>
    rw [List.map_map]
    exact h.addresses
  case tiled =>
    rw [List.forall₂_map_left_iff, List.forall₂_map_right_iff, List.forall₂_same]
    intro c hc info hInfo
    have hNative : ¬c.isBridge = true := by
      rw [← hSection, hInfo]
      simp
    have hWidth := h.width c hc
    rw [Core.WidthAgrees, if_neg hNative] at hWidth
    rw [sectionOf, if_neg hNative] at hInfo
    rw [hWidth, ← Option.some.inj hInfo]
    exact hFits.sound.tiles (h.order c hc)
  case numbered =>
    intro hMode
    rw [hIndices, List.range'_eq_map_range]
    simpa [Nat.add_comm] using (hFits.flatten_perm hMode).map (· + 1)
  case widths =>
    intro info hInfo
    rw [hListed] at hInfo
    obtain ⟨p, hp, rfl⟩ := List.mem_map.mp hInfo
    exact ⟨p, rfl, hTable.shows_width (hKnown p hp)⟩
  case unlisted =>
    intro p hp hOther
    rw [hIndices] at hOther
    have hZero := h.probeWidth_unlisted hTable hFits hp fun hMem => hOther (List.mem_map_of_mem hMem)
    rw [← hZero]
    exact hTable.shows_width hp
  case native =>
    intro hMode sec hSec
    obtain ⟨c, hc, rfl⟩ := List.mem_map.mp hSec
    rw [ne_eq, hSection, h.seats.isBridge_iff hTable.shaped hc]
    exact fun hBridge => hBridge.1 hMode
  case bridge =>
    intro hMode i sec hi
    obtain ⟨c, hc, rfl, rfl⟩ := h.section_at hi
    rw [hSection, h.seats.isBridge_iff hTable.shaped hc, List.length_map, h.count]
    exact and_iff_right hMode

namespace Analysis.Qualified

variable {rules : Rules} {d : Design} {b found : Bench} {l : Layout} {t : Target}

theorem cores_ne_nil (h : Qualified rules d b found l t) : b.cores ≠ [] := by
  intro hNil
  have hLength := h.hosts.count
  rw [hNil, h.agreement.coreCount] at hLength
  exact h.agreement.someCore (List.eq_nil_of_length_eq_zero hLength.symm)

/-- The report on a bench that qualified. -/
theorem report_sections (h : Qualified rules d b found l t) {log : Log} {r : Report}
    (hReport : Report.ofBench log (some b) = .ok r) :
    r.qualified = some ⟨b.cores.map (found.subsystem.sectionOf l), found.subsystem.params.entries⟩ := by
  have hLayout : b.subsystem.layout = some l := by
    rw [h.settled]
    rfl
  have hSections := Report.ofBench_eq_ok hLayout h.cores_ne_nil hReport
  rw [h.settled] at hSections
  exact hSections

end Analysis.Qualified

/-- An analysis with a finding went through all stages, and reports on the bench they end with. -/
theorem Design.analyze_eq_ok {d : Design} {rules : Rules} {finding : Finding}
    (h : (d.analyze rules).outcome = .ok finding) :
    ∃ log bench, (Analysis.stages rules d).result = .ok bench ∧
      (d.analyze rules).design = (Analysis.stages rules d).design ∧
      Report.ofBench log bench = .ok finding.report ∧
      finding.qualified = (bench.map fun b => b.cores.length).getD 0 := by
  unfold Design.analyze at h ⊢
  dsimp only at h ⊢
  split at h
  · cases h
  · split at h
    · cases h
    · next bench hStages =>
      split at h
      · cases h
      · next report hReport =>
        cases h
        exact ⟨_, bench, hStages, rfl, hReport, rfl⟩

/-- **Reports are sound.** An analysis that qualifies some cores reports on all cores of the bench,
consistently, and every core's signal is as wide as its section says. Its document has an object for every
core and one for the subsystem, with all that the sections say. An analysis that qualifies none reports its
messages and nothing else. -/
theorem Design.analyze_consistent {d : Design} {rules : Rules} {finding : Finding}
    (h : (d.analyze rules).outcome = .ok finding) :
    (finding.qualified = 0 →
      finding.report.toValue = .object [("messages", .ofStrings finding.report.messages)]) ∧
    (0 < finding.qualified → ∃ q b mode probes counts sections hub,
      finding.report.qualified = some q ∧ (Analysis.stages rules d).result = .ok (some b) ∧
      finding.report.toValue = .object [("messages", .ofStrings finding.report.messages),
        ("ocla", .array sections), ("ocla_debug_subsystem", .object hub)] ∧
      q.WrittenAs sections hub ∧
      q.cores.length = finding.qualified ∧ q.Consistent mode probes counts ∧
      List.Forall₂ (fun sec c => sec.signals = c.probes.map Fragment.signalName ∧
        Shows sec.params "NO_OF_PROBES" (Fragment.totalWidth c.probes)) q.cores b.cores) := by
  obtain ⟨log, bench, hStages, -, hReport, hCount⟩ := Design.analyze_eq_ok h
  cases bench with
  | none =>
    constructor
    · intro _
      rw [← Except.ok.inj hReport]
      rfl
    · intro hSome
      rw [hCount] at hSome
      cases hSome
  | some b =>
    obtain ⟨found, l, t, hQualified⟩ := Analysis.stages_qualified hStages
    have hHosts := hQualified.hosts
    have hSections := hQualified.report_sections hReport
    have hConsistent := hHosts.consistent hQualified.subsystem hQualified.fits
    rw [Option.map_some, Option.getD_some] at hCount
    constructor
    · intro hZero
      exact absurd (List.eq_nil_of_length_eq_zero (hCount.symm.trans hZero)) hQualified.cores_ne_nil
    · intro _
      have hFull : ∀ sec ∈ b.cores.map (found.subsystem.sectionOf l), sec.WrittenAs (Report.coreValue sec) :=
        List.forall_mem_map.mpr fun c hc => (hHosts.fromTable c hc).writtenAs rfl
      obtain ⟨sections, hub, hDocument, hWritten⟩ := Report.toValue_qualified hSections hFull
      refine ⟨_, b, _, _, _, sections, hub, hSections, hStages, hDocument, hWritten, ?_, hConsistent, ?_⟩
      · rw [List.length_map, hCount]
      · rw [List.forall₂_map_left_iff, List.forall₂_same]
        intro c hc
        refine ⟨rfl, ?_⟩
        rw [hQualified.totalWidth c hc]
        exact (hHosts.fromTable c hc).get?_entries ⟨"NO_OF_PROBES", .word32⟩ (by decide)
          (hHosts.fromTable c hc).probeCount

/-! ## A design that qualifies -/

/-- A module without attributes. -/
private def plain (name : String) (parameters : List (String × String)) (ports : List (String × Port))
    (cells : List Cell) (netnames : List NetName) : Module :=
  ⟨name, [], parameters, ports, cells, netnames, false⟩

/-- The parameters that cores and subsystem share. -/
private def identity : List (String × String) :=
  [("IP_TYPE", "\"OCLA\""), ("IP_VERSION", "1"), ("IP_ID", "7")]

private def coreParams (index probes : String) : List (String × String) :=
  identity ++
    [("AXI_ADDR_WIDTH", "32"), ("AXI_DATA_WIDTH", "32"), ("MEM_DEPTH", "64"),
      ("NO_OF_PROBES", probes), ("NO_OF_TRIGGER_INPUTS", "1"), ("INDEX", index)]

/-- A native core with two probes, the second one below the first, beside a bridge to one bus. -/
private def hubParams : List (String × String) :=
  identity ++
    [("Mode", "\"NATIVE_AXI\""), ("Axi_Type", "\"AXILite\""), ("No_AXI_Bus", "1"), ("Cores", "2"),
      ("No_Probes", "2"), ("Probes_Sum", "157")] ++
    (List.range interfaceCount).flatMap fun i =>
      [(Slot.widthKey i, if i = 0 then "3" else if i = 1 then "2" else "0"),
        (Slot.addressKey i, if i = 0 then "16" else if i = 1 then "32" else "0"),
        (Slot.packedKey i, if i = 0 then "18" else "0")]

/-- The first probe watches a wire and a constant, the second one another wire. -/
def sampleDesign : Design :=
  { modules :=
      [plain "top" [] []
          [⟨"debug", "wrapper",
            [("probe_1", [.net 2, .net 3, .const .one]), ("probe_2", [.net 4, .net 5])]⟩]
          [⟨"state", [.net 2, .net 3], false, false⟩, ⟨"count", [.net 4, .net 5], false, false⟩],
        plain "wrapper" []
          [("probe_1", ⟨.input, [.net 2, .net 3, .net 4]⟩), ("probe_2", ⟨.input, [.net 5, .net 6]⟩)]
          [⟨"hub", "ocla_debug_subsystem", []⟩] [],
        plain "ocla_debug_subsystem" hubParams []
          [⟨"native", "ocla", []⟩, ⟨"bridge", "$paramod\\ocla", []⟩] [],
        plain "ocla" (coreParams "0" "5") [] [] [],
        plain "$paramod\\ocla" (coreParams "1" "152") [] [] []]
    top := some "top"
    flattened := false }

theorem sampleDesign_qualifies : ∃ finding q, (sampleDesign.analyze {}).outcome = .ok finding ∧
    finding.qualified = 2 ∧ finding.report.qualified = some q ∧
    q.cores.map CoreSection.probeInfo = [some [⟨2, 0, 2⟩, ⟨1, 2, 3⟩], none] := by
  have h : (sampleDesign.analyze {}).outcome.toOption.map (fun finding => (finding.qualified,
      finding.report.qualified.map fun q => q.cores.map CoreSection.probeInfo)) =
        some (2, some [some [⟨2, 0, 2⟩, ⟨1, 2, 3⟩], none]) := by
    decide +kernel
  cases hOutcome : (sampleDesign.analyze {}).outcome with
  | error abort =>
    rw [hOutcome] at h
    cases h
  | ok finding =>
    rw [hOutcome] at h
    obtain ⟨hCount, hReport⟩ := Prod.mk.inj (Option.some.inj h)
    obtain ⟨q, hq, hInfo⟩ := Option.map_eq_some_iff.mp hReport
    exact ⟨finding, q, rfl, hCount, hq, hInfo⟩

/-- Both cores of the sample are reported, consistently, and both have their object in the document. -/
theorem sampleDesign_consistent : ∃ finding q b mode probes counts core bridge hub,
    (sampleDesign.analyze {}).outcome = .ok finding ∧ 0 < finding.qualified ∧
      finding.report.qualified = some q ∧
      (Analysis.stages {} sampleDesign).result = .ok (some b) ∧ q.cores.length = 2 ∧
      q.Consistent mode probes counts ∧
      finding.report.toValue = .object [("messages", .ofStrings finding.report.messages),
        ("ocla", .array [core, bridge]), ("ocla_debug_subsystem", .object hub)] ∧
      q.WrittenAs [core, bridge] hub := by
  obtain ⟨finding, -, hOutcome, hCount, -⟩ := sampleDesign_qualifies
  have hSome : 0 < finding.qualified := by
    rw [hCount]
    decide
  obtain ⟨q, b, mode, probes, counts, sections, hub, hq, hb, hDocument, hWritten, hLength,
    hConsistent, -⟩ :=
    (Design.analyze_consistent hOutcome).2 hSome
  rw [hCount] at hLength
  obtain ⟨core, bridge, rfl⟩ := List.length_eq_two.mp (hWritten.cores.length_eq.symm.trans hLength)
  exact ⟨finding, q, b, mode, probes, counts, core, bridge, hub, hOutcome, hSome, hq, hb, hLength, hConsistent,
    hDocument, hWritten⟩

end ProbeAtlas
