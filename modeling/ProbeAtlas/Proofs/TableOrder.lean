import ProbeAtlas.Debug.Wiring
import ProbeAtlas.Proofs.Agreement
import ProbeAtlas.Proofs.Enrolment
import ProbeAtlas.Report

/-!
# ProbeAtlas — the order within a parameter table is of no account

Cores and subsystems carry the tables they were built from, and a table keeps its values in the order in
which they were assigned. Nothing that is done with a bench reads that order. To say so, `Bench.tidy`
replaces every table by one that lists its values slot by slot, and each stage is shown to do the same
with a bench as with its tidy form.

Parameters in another order give the same tidy form (`ParamTable.Same.tidy_eq`), so benches that come from
such parameters cannot be told apart by any stage.

Main results: `Bench.agreement_tidy`, `Bench.wire_tidy` and `Report.ofBench_tidy`.
-/

namespace ProbeAtlas

-- ---------------------------------------------------------------------------
-- Tidy tables
-- ---------------------------------------------------------------------------

/-- The table with its values in the order of the slots. -/
def ParamTable.tidy (t : ParamTable) : ParamTable :=
  ⟨t.slots, t.slots.filterMap fun s => (t.get? s.key).map fun v => (s.key, v)⟩

def Core.tidy (c : Core) : Core :=
  { c with params := c.params.tidy }

def Subsystem.tidy (s : Subsystem) : Subsystem :=
  { s with params := s.params.tidy }

def Bench.tidy (b : Bench) : Bench :=
  ⟨b.subsystem.tidy, b.cores.map Core.tidy⟩

namespace ParamTable

theorem get?_tidy {t : ParamTable} {s : Slot} (hs : s ∈ t.slots) :
    t.tidy.get? s.key = t.get? s.key := by
  have hRule : ∀ e ∈ t.tidy.values, t.get? e.1 = some e.2 := by
    intro e he
    obtain ⟨slot, -, hSlot⟩ := List.mem_filterMap.mp he
    obtain ⟨v, hv, rfl⟩ := Option.map_eq_some_iff.mp hSlot
    exact hv
  cases hv : t.get? s.key with
  | none =>
    refine Option.eq_none_iff_forall_ne_some.mpr fun v hFound => ?_
    have hHeld : t.get? s.key = some v := hRule (s.key, v) (Entries.mem_of_get? hFound)
    rw [hv] at hHeld
    cases hHeld
  | some v =>
    have hMem : (s.key, v) ∈ t.tidy.values :=
      List.mem_filterMap.mpr ⟨s, hs, by rw [hv, Option.map_some]⟩
    rw [← hv]
    exact Entries.get?_eq_of_forall hRule (List.mem_map_of_mem (f := Prod.fst) hMem)

/-- A tidy table is reported like the table itself. -/
theorem entries_tidy (t : ParamTable) : t.tidy.entries = t.entries := by
  unfold entries
  refine congrArg Entries.ofPairs (List.filterMap_congr fun s hs => ?_)
  have hs : s ∈ t.slots := hs
  rw [get?_tidy hs]

namespace Same

variable {t t' : ParamTable} (h : t.Same t')

include h

theorem word32 (key : String) : t'.word32 key = t.word32 key := by
  rw [ParamTable.word32, ParamTable.word32, h.get?]

theorem word64 (key : String) : t'.word64 key = t.word64 key := by
  rw [ParamTable.word64, ParamTable.word64, h.get?]

theorem text (key : String) : t'.text key = t.text key := by
  rw [ParamTable.text, ParamTable.text, h.get?]

/-- Tables that hold the same have one tidy form. -/
theorem tidy_eq : t'.tidy = t.tidy := by
  unfold tidy
  rw [h.slots]
  simp only [h.get?]

end Same

end ParamTable

-- ---------------------------------------------------------------------------
-- Building
-- ---------------------------------------------------------------------------

section Building

variable {t t' : ParamTable}

theorem Core.ofTable_tidy (h : t.Same t') (name : String) :
    Core.tidy <$> ofTable name t' = Core.tidy <$> ofTable name t := by
  simp only [ofTable, h.text, h.word32, map_bind, map_pure, tidy, h.tidy_eq]

theorem Subsystem.Shape.ofTable_same (h : t.Same t') : ofTable t' = ofTable t := by
  simp only [ofTable, h.text, h.word32]

theorem Subsystem.interfaceOf_same (h : t.Same t') : interfaceOf t' = interfaceOf t := by
  funext i
  simp only [interfaceOf, h.word32, h.word64]

theorem Subsystem.ofShape_tidy (h : t.Same t') (name : String) (shape : Shape) (mode : Mode) :
    Subsystem.tidy <$> ofShape name t' shape mode = Subsystem.tidy <$> ofShape name t shape mode := by
  simp only [ofShape, h.word32, interfaceOf_same h, map_bind, map_pure, tidy, h.tidy_eq]

end Building

-- ---------------------------------------------------------------------------
-- The cross-check
-- ---------------------------------------------------------------------------

namespace Subsystem

variable (s : Subsystem)

theorem place_tidy (core : Nat) (probes : List Nat) (l : Layout) :
    s.tidy.place core probes l = s.place core probes l := by
  induction probes generalizing l with
  | nil => rfl
  | cons p rest ih =>
    have hLast : s.tidy.lastProbe = s.lastProbe := rfl
    have hInterface : s.tidy.interface (p - 1) = s.interface (p - 1) := rfl
    rw [place, place, hLast, hInterface]
    simp only [ih]

theorem placeAll_tidy (interfaces : List Nat) (l : Layout) :
    s.tidy.placeAll interfaces l = s.placeAll interfaces l := by
  induction interfaces generalizing l with
  | nil => rfl
  | cons i rest ih =>
    have hNative : s.tidy.nativeCount = s.nativeCount := rfl
    have hInterface : s.tidy.interface i = s.interface i := rfl
    rw [placeAll, placeAll, hNative, hInterface]
    simp only [ih, place_tidy]

theorem decodeLayout_tidy : s.tidy.decodeLayout = s.decodeLayout := by
  have hNative : s.tidy.nativeCount = s.nativeCount := rfl
  have hBridge : s.tidy.bridgeIndex? = s.bridgeIndex? := rfl
  have hCount : s.tidy.probeCount = s.probeCount := rfl
  unfold decodeLayout
  rw [hNative, hBridge, hCount, placeAll_tidy]

end Subsystem

namespace Bench

variable (b : Bench) (l : Layout)

theorem layout_tidy : b.tidy.layout = b.layout := by
  have hMode : b.tidy.subsystem.mode = b.subsystem.mode := rfl
  have hDecode : b.tidy.subsystem.decodeLayout = b.subsystem.decodeLayout :=
    b.subsystem.decodeLayout_tidy
  unfold layout
  rw [hMode, hDecode]

/-- The cross-check leaves the same places and addresses. -/
theorem settled_tidy : b.tidy.settled l = (b.settled l).tidy := by
  show Bench.mk _ ((b.cores.map Core.tidy).map (Core.settle b.subsystem.tidy l)) =
    Bench.mk _ ((b.cores.map (Core.settle b.subsystem l)).map Core.tidy)
  rw [List.map_map, List.map_map]
  rfl

theorem bridgeProbes_tidy : b.tidy.bridgeProbes = b.bridgeProbes := by
  show (if b.subsystem.mode = .native then 0
    else (((b.cores.map Core.tidy).find? Core.isBridge).map Core.probeCount).getD 0) = _
  rw [List.find?_map, Option.map_map]
  rfl

/-- **A bench agrees in all points iff its tidy form does.** -/
theorem agreement_tidy {instantiators : List String} :
    b.tidy.Agreement instantiators l ↔ b.Agreement instantiators l := by
  have hSome : b.tidy.cores ≠ [] ↔ b.cores ≠ [] := not_congr List.map_eq_nil_iff
  have hLength : b.tidy.cores.length = b.cores.length := List.length_map ..
  have hLayout : b.tidy.layout.result = b.layout.result := by rw [layout_tidy]
  have hBridge : (b.tidy.settled l).bridgeProbes = (b.settled l).bridgeProbes := by
    rw [settled_tidy, bridgeProbes_tidy]
  -- what is asked of every core is not about its table
  have hAll : ∀ {P : Core → Prop}, (∀ c ∈ b.tidy.cores, P c) ↔ ∀ c ∈ b.cores, P c.tidy :=
    List.forall_mem_map
  have hIndex : (∀ (k : Nat) c, b.tidy.cores[k]? = some c → c.index = k) ↔
      ∀ (k : Nat) c, b.cores[k]? = some c → c.index = k := by
    refine forall_congr' fun k => ?_
    have hAt : b.tidy.cores[k]? = b.cores[k]?.map Core.tidy := List.getElem?_map ..
    rw [hAt]
    cases b.cores[k]? <;> simp [Core.tidy]
  have hWidths : ∀ c : Core, (c.tidy.place b.tidy.subsystem l).WidthAgrees b.tidy.subsystem l ↔
      (c.place b.subsystem l).WidthAgrees b.subsystem l := fun c => Iff.rfl
  have hAddresses : (b.tidy.cores.map fun c => b.tidy.subsystem.address c.index) =
      b.cores.map fun c => b.subsystem.address c.index := List.map_map ..
  constructor
  · intro h
    exact
      { someCore := hSome.mp h.someCore
        places := hLength ▸ h.places
        coreCount := hLength ▸ h.coreCount
        index := hIndex.mp h.index
        holder := h.holder
        identity := hAll.mp h.identity
        busPorts := fun c hc => hAll.mp (hAll.mp h.busPorts c hc)
        layout := hLayout.symm.trans h.layout
        noLayout := h.noLayout
        owned := hAll.mp h.owned
        widths := fun c hc => (hWidths c).mp (hAll.mp h.widths c hc)
        unused := h.unused
        declaredSum := hBridge ▸ h.declaredSum
        mappedSum := hBridge ▸ h.mappedSum
        addressed := hAll.mp h.addressed
        addresses := hAddresses ▸ h.addresses }
  · intro h
    exact
      { someCore := hSome.mpr h.someCore
        places := hLength ▸ h.places
        coreCount := hLength ▸ h.coreCount
        index := hIndex.mpr h.index
        holder := h.holder
        identity := hAll.mpr h.identity
        busPorts := hAll.mpr fun c hc => hAll.mpr (h.busPorts c hc)
        layout := hLayout.trans h.layout
        noLayout := h.noLayout
        owned := hAll.mpr h.owned
        widths := hAll.mpr fun c hc => (hWidths c).mpr (h.widths c hc)
        unused := h.unused
        declaredSum := hBridge ▸ h.declaredSum
        mappedSum := hBridge ▸ h.mappedSum
        addressed := hAll.mpr h.addressed
        addresses := hAddresses ▸ h.addresses }

end Bench

-- ---------------------------------------------------------------------------
-- Wiring
-- ---------------------------------------------------------------------------

/-- The module without its parameters. -/
def Module.body (m : Module) : Module :=
  { m with parameters := [] }

/-- The site with a tidy subsystem; the parameters of the top module are left out as well. -/
def Site.tidy (site : Site) : Site :=
  { site with top := site.top.body, subsystem := site.subsystem.map Subsystem.tidy }

namespace Site

variable (site : Site)

theorem wireProbe_tidy (core : String) (probe : Nat) :
    site.tidy.wireProbe core probe = site.wireProbe core probe := by
  have hWidth : Subsystem.widthOf site.tidy.subsystem probe =
      Subsystem.widthOf site.subsystem probe := by
    show Subsystem.widthOf (site.subsystem.map Subsystem.tidy) probe = _
    cases site.subsystem <;> rfl
  have hFragments : site.tidy.top.fragments = site.top.fragments := rfl
  unfold wireProbe
  rw [hWidth, hFragments]
  rfl

theorem wireProbes_tidy (core : String) (probes : List Nat) :
    site.tidy.wireProbes core probes = site.wireProbes core probes := by
  induction probes with
  | nil => rfl
  | cons p rest ih => rw [wireProbes, wireProbes, wireProbe_tidy, ih]

theorem wireCore_tidy (c : Core) : site.tidy.wireCore c.tidy = site.wireCore c := by
  have hProbes : site.tidy.wireProbes c.tidy.name c.tidy.probeOrder.reverse =
      site.wireProbes c.name c.probeOrder.reverse := site.wireProbes_tidy ..
  have hBridge : c.tidy.isBridge = c.isBridge := rfl
  unfold wireCore
  rw [hProbes, hBridge]
  show (if c.isBridge then Run.ofExcept (Subsystem.known (site.subsystem.map Subsystem.tidy)) >>= _
    else _) = _
  cases site.subsystem <;> rfl

theorem wireCores_tidy (cores : List Core) :
    site.tidy.wireCores (cores.map Core.tidy) =
      { site.wireCores cores with cores := (site.wireCores cores).cores.map Core.tidy } := by
  induction cores with
  | nil => rfl
  | cons c cs ih =>
    rw [List.map_cons, wireCores, wireCores, wireCore_tidy, ih]
    cases (site.wireCore c).result <;> rfl

end Site

theorem checkWired_tidy (cores : List Core) : checkWired (cores.map Core.tidy) = checkWired cores := by
  unfold checkWired complainEach
  rw [List.filterMap_map]
  rfl

/-- **Wiring gives the cores of a tidy bench the same signals.** -/
theorem Bench.wire_tidy (b : Bench) (top : Option Module) (instantiator : String) (rules : Rules) :
    (b.tidy.wire (top.map Module.body) instantiator rules).result =
        (b.wire top instantiator rules).result ∧
      (b.tidy.wire (top.map Module.body) instantiator rules).bench =
        (b.wire top instantiator rules).bench.tidy := by
  have hFind : ((b.cores.map Core.tidy).find? fun c => !c.probes.isEmpty) =
      (b.cores.find? fun c => !c.probes.isEmpty).map Core.tidy := List.find?_map ..
  unfold wire wireAll
  dsimp only [tidy]
  rw [hFind]
  cases b.cores.find? fun c => !c.probes.isEmpty with
  | some c => exact ⟨rfl, rfl⟩
  | none =>
    cases top with
    | none => exact ⟨rfl, rfl⟩
    | some top =>
      have hCells : top.body.cells = top.cells := rfl
      dsimp only [Option.map_none, Option.map_some]
      rw [hCells]
      split
      · next cell _ =>
        have hSite : (⟨top.body, some b.subsystem.tidy, rules, cell⟩ : Site) =
            Site.tidy ⟨top, some b.subsystem, rules, cell⟩ := rfl
        rw [hSite, Site.wireCores_tidy]
        dsimp only
        rw [checkWired_tidy]
        cases (Site.wireCores ⟨top, some b.subsystem, rules, cell⟩ b.cores).result <;> exact ⟨rfl, rfl⟩
      · exact ⟨rfl, rfl⟩

-- ---------------------------------------------------------------------------
-- Reporting
-- ---------------------------------------------------------------------------

namespace Report

theorem coreSection_tidy (s : Subsystem) (c : Core) : coreSection s.tidy c.tidy = coreSection s c := by
  have hProbes : coreProbes s.tidy c.tidy = coreProbes s c := rfl
  have hEntries : c.tidy.params.entries = c.params.entries := c.params.entries_tidy
  unfold coreSection
  rw [hProbes, hEntries]
  rfl

/-- **A tidy bench is reported on like the bench itself.** -/
theorem ofBench_tidy (log : Log) (found : Option Bench) :
    ofBench log (found.map Bench.tidy) = ofBench log found := by
  cases found with
  | none => rfl
  | some b =>
    have hEmpty : (b.cores.map Core.tidy).isEmpty = b.cores.isEmpty := List.isEmpty_map
    have hSections : (b.cores.map Core.tidy).mapM (coreSection b.subsystem.tidy) =
        b.cores.mapM (coreSection b.subsystem) := by
      rw [List.mapM_map]
      exact congrArg b.cores.mapM (funext fun c => coreSection_tidy b.subsystem c)
    have hEntries : b.subsystem.tidy.params.entries = b.subsystem.params.entries :=
      b.subsystem.params.entries_tidy
    show build log (some b.subsystem.tidy) (b.cores.map Core.tidy) = build log (some b.subsystem) b.cores
    unfold build
    rw [hEmpty]
    split
    · rfl
    · show ((b.cores.map Core.tidy).mapM (coreSection b.subsystem.tidy) >>= _) =
        (b.cores.mapM (coreSection b.subsystem) >>= _)
      rw [hSections, hEntries]

end Report

end ProbeAtlas
