import Mathlib.Data.List.Forall2
import ProbeAtlas.Debug.Census
import ProbeAtlas.Proofs.Entries
import ProbeAtlas.Proofs.Outcome

/-!
# ProbeAtlas — what the census reads

A debug core and a debug subsystem are records of numbers, and they carry the parameter table they
were built from. Reports print the table while the checks compare the numbers, so both have to say the
same. `Core.FromTable` and `Subsystem.FromTable` state this, together with what building has checked,
and `Census.take_fromTable` shows that every module in a census is of this kind.

A report shows a table as the entries of an object. Every slot is found again among those entries
(`ParamTable.get?_entries`), in whatever order they stand.
-/

namespace ProbeAtlas

-- ---------------------------------------------------------------------------
-- Parameter tables
-- ---------------------------------------------------------------------------

namespace ParamTable

/-- A report shows under the key of a slot what the table holds there. -/
theorem get?_entries {t : ParamTable} {slot : Slot} {v : ParamValue} (hSlot : slot ∈ t.slots)
    (hKey : slot.key ≠ Entries.reservedKey) (hv : t.get? slot.key = some v) :
    Entries.get? t.entries slot.key = some v := by
  rw [entries]
  set pairs := t.slots.filterMap fun s =>
    if s.key = Entries.reservedKey then none else (t.get? s.key).map fun v => (s.key, v) with hpairs
  -- the value of an entry depends on its key only, so neither order nor repetition matters
  have hRule : ∀ e ∈ pairs, t.get? e.1 = some e.2 := by
    intro e he
    obtain ⟨s, -, hs⟩ := List.mem_filterMap.mp (hpairs ▸ he)
    split at hs
    · cases hs
    · obtain ⟨w, hw, rfl⟩ := Option.map_eq_some_iff.mp hs
      exact hw
  have hOccurs : slot.key ∈ pairs.map Prod.fst := by
    refine List.mem_map.mpr ⟨(slot.key, v), List.mem_filterMap.mpr ⟨slot, hSlot, ?_⟩, rfl⟩
    rw [if_neg hKey, hv, Option.map_some]
  rw [Entries.get?_eq_of_forall (f := t.get?), hv]
  · exact fun e he => hRule e (Entries.mem_of_mem_ofPairs he)
  · exact Entries.mem_keys_ofPairs.mpr hOccurs

theorem word32_eq_ok {t : ParamTable} {key : String} {n : Nat} :
    t.word32 key = .ok n ↔ t.get? key = some (.word32 n) := by
  unfold word32
  split <;> simp_all

theorem word64_eq_ok {t : ParamTable} {key : String} {n : Nat} :
    t.word64 key = .ok n ↔ t.get? key = some (.word64 n) := by
  unfold word64
  split <;> simp_all

theorem text_eq_ok {t : ParamTable} {key : String} {s : String} :
    t.text key = .ok s ↔ t.get? key = some (.text s) := by
  unfold text
  split <;> simp_all

/-- A decoded table has the slots it was decoded for. -/
theorem slots_of_decode? {slots : List Slot} {params : List (String × String)} {t : ParamTable}
    (h : (decode? slots params).value = some t) : t.slots = slots := by
  unfold decode? at h
  rw [Logged.value_bind] at h
  split at h
  · cases h
  · simp only [Logged.value_bind, Logged.value_pure] at h
    split at h
    · cases h
      rfl
    · cases h

end ParamTable

-- ---------------------------------------------------------------------------
-- Cores
-- ---------------------------------------------------------------------------

/-- The core says what its table says. -/
structure Core.FromTable (c : Core) : Prop where
  slots      : c.params.slots = Slot.coreSlots
  index      : c.params.get? "INDEX" = some (.word32 c.index)
  probeCount : c.params.get? "NO_OF_PROBES" = some (.word32 c.probeCount)

namespace Core

theorem fromTable_of_ofTable {name : String} {t : ParamTable} {c : Core}
    (hSlots : t.slots = Slot.coreSlots) (h : ofTable name t = .ok c) : c.FromTable := by
  unfold ofTable at h
  obtain ⟨type, -, h⟩ := except_bind_eq_ok.mp h
  obtain ⟨version, -, h⟩ := except_bind_eq_ok.mp h
  obtain ⟨id, -, h⟩ := except_bind_eq_ok.mp h
  obtain ⟨index, hIndex, h⟩ := except_bind_eq_ok.mp h
  obtain ⟨memDepth, -, h⟩ := except_bind_eq_ok.mp h
  obtain ⟨probeCount, hCount, h⟩ := except_bind_eq_ok.mp h
  obtain ⟨addrWidth, -, h⟩ := except_bind_eq_ok.mp h
  obtain ⟨dataWidth, -, h⟩ := except_bind_eq_ok.mp h
  cases h
  exact ⟨hSlots, ParamTable.word32_eq_ok.mp hIndex, ParamTable.word32_eq_ok.mp hCount⟩

/-- Building gives back the core that the table describes, or nothing. -/
theorem ofTable_of_build {name ipType : String} {t : ParamTable} {built : Logged (Option Core)}
    {c : Core} (h : build name t ipType = .ok built) (hc : built.value = some c) :
    ofTable name t = .ok c := by
  obtain ⟨c', hc', h⟩ := except_bind_eq_ok.mp h
  cases h
  unfold accept at hc
  split at hc
  · cases hc
    exact hc'
  · cases hc

/-- The entry of a core's section under the key of a slot. -/
theorem FromTable.get?_entries {c : Core} (h : c.FromTable) (slot : Slot) {v : ParamValue}
    (hSlot : slot ∈ Slot.coreSlots) (hv : c.params.get? slot.key = some v) :
    Entries.get? c.params.entries slot.key = some v := by
  have hKeys : ∀ s ∈ Slot.coreSlots, s.key ≠ Entries.reservedKey := by decide
  exact ParamTable.get?_entries (h.slots ▸ hSlot) (hKeys slot hSlot) hv

end Core

-- ---------------------------------------------------------------------------
-- Subsystems
-- ---------------------------------------------------------------------------

theorem Mode.text_of_ofText? {text : String} {mode : Mode} (h : Mode.ofText? text = some mode) :
    mode.text = text := by
  unfold Mode.ofText? at h
  split at h <;> cases h <;> rfl

/-- The interface at a position says what the table says about it. -/
structure Interface.FromTable (itf : Interface) (t : ParamTable) (i : Nat) : Prop where
  probeWidth  : t.get? (Slot.widthKey i) = some (.word32 itf.probeWidth)
  baseAddress : t.get? (Slot.addressKey i) = some (.word32 itf.baseAddress)
  packed      : t.get? (Slot.packedKey i) = some (.word64 itf.packed)

/-- The subsystem has all its interfaces, and its numbers suit its mode. -/
structure Subsystem.Shaped (s : Subsystem) : Prop where
  interfaces : s.interfaces.length = interfaceCount
  shape      : Subsystem.shapeOk s.mode s.coreCount s.bus s.busCount = true
  probes_le  : s.probeCount ≤ interfaceCount

/-- The subsystem says what its table says, and its numbers suit its mode. -/
structure Subsystem.FromTable (s : Subsystem) : Prop where
  slots      : s.params.slots = Slot.subsystemSlots
  mode       : s.params.get? "Mode" = some (.text s.mode.text)
  coreCount  : s.params.get? "Cores" = some (.word32 s.coreCount)
  probeCount : s.params.get? "No_Probes" = some (.word32 s.probeCount)
  probesSum  : s.params.get? "Probes_Sum" = some (.word32 s.probesSum)
  interfaces : s.interfaces.length = interfaceCount
  interface  : ∀ (i : Nat) (itf : Interface), s.interfaces[i]? = some itf → itf.FromTable s.params i
  shape      : Subsystem.shapeOk s.mode s.coreCount s.bus s.busCount = true
  probes_le  : s.probeCount ≤ interfaceCount

namespace Subsystem

theorem FromTable.shaped {s : Subsystem} (h : s.FromTable) : s.Shaped :=
  ⟨h.interfaces, h.shape, h.probes_le⟩

theorem fromTable_of_interfaceOf {t : ParamTable} {i : Nat} {itf : Interface}
    (h : interfaceOf t i = .ok itf) : itf.FromTable t i := by
  unfold interfaceOf at h
  obtain ⟨width, hWidth, h⟩ := except_bind_eq_ok.mp h
  obtain ⟨address, hAddress, h⟩ := except_bind_eq_ok.mp h
  obtain ⟨packed, hPacked, h⟩ := except_bind_eq_ok.mp h
  cases h
  exact ⟨ParamTable.word32_eq_ok.mp hWidth, ParamTable.word32_eq_ok.mp hAddress,
    ParamTable.word64_eq_ok.mp hPacked⟩

/-- Whether the numbers suit the mode does not depend on a bus that the mode does not have. -/
theorem shapeOk_dropBus (mode : Mode) (cores : Nat) (bus : Option BusKind) (buses : Nat) :
    shapeOk mode cores (if mode = .native then none else bus) buses = shapeOk mode cores bus buses := by
  cases mode <;> rfl

/-- Building gives the subsystem of a valid shape, or nothing. -/
theorem ofShape_of_build {name ipType : String} {t : ParamTable} {built : Logged (Option Subsystem)}
    {s : Subsystem} (h : build name t ipType = .ok built) (hs : built.value = some s) :
    ∃ shape mode, Shape.ofTable t = .ok shape ∧ shape.mode? ipType = some mode ∧
      ofShape name t shape mode = .ok s := by
  obtain ⟨shape, hShape, h⟩ := except_bind_eq_ok.mp h
  split at h
  · cases h
    cases hs
  case h_2 mode hMode =>
    obtain ⟨s', hOf, h⟩ := except_bind_eq_ok.mp h
    cases h
    cases hs
    exact ⟨shape, mode, hShape, hMode, hOf⟩

/-- A subsystem that was built has all its interfaces, and its numbers suit its mode. It has no layout
yet. -/
theorem shaped_of_build {name ipType : String} {t : ParamTable} {built : Logged (Option Subsystem)}
    {s : Subsystem} (h : build name t ipType = .ok built) (hs : built.value = some s) :
    s.Shaped ∧ s.layout = none := by
  obtain ⟨shape, mode, -, hMode, hOf⟩ := ofShape_of_build h hs
  obtain ⟨-, hValid⟩ := Option.filter_eq_some_iff.mp hMode
  simp only [Bool.and_eq_true, decide_eq_true_eq] at hValid
  unfold ofShape at hOf
  obtain ⟨version, -, hOf⟩ := except_bind_eq_ok.mp hOf
  obtain ⟨id, -, hOf⟩ := except_bind_eq_ok.mp hOf
  obtain ⟨probesSum, -, hOf⟩ := except_bind_eq_ok.mp hOf
  obtain ⟨interfaces, hItf, hOf⟩ := except_bind_eq_ok.mp hOf
  cases hOf
  have hLength := (mapM_eq_ok_iff.mp hItf).length_eq
  rw [List.length_range] at hLength
  refine ⟨⟨hLength.symm, ?_, hValid.2⟩, rfl⟩
  rw [shapeOk_dropBus]
  exact hValid.1.2

theorem fromTable_of_build {name ipType : String} {t : ParamTable}
    {built : Logged (Option Subsystem)} {s : Subsystem} (hSlots : t.slots = Slot.subsystemSlots)
    (h : build name t ipType = .ok built) (hs : built.value = some s) : s.FromTable := by
  obtain ⟨⟨hInterfaces, hShapeOk, hProbes⟩, -⟩ := shaped_of_build h hs
  obtain ⟨shape, mode, hShape, hMode, hOf⟩ := ofShape_of_build h hs
  obtain ⟨hModeText, -⟩ := Option.filter_eq_some_iff.mp hMode
  -- the parameters that were looked at
  unfold Shape.ofTable at hShape
  obtain ⟨type, -, hShape⟩ := except_bind_eq_ok.mp hShape
  obtain ⟨modeText, hM, hShape⟩ := except_bind_eq_ok.mp hShape
  obtain ⟨busText, -, hShape⟩ := except_bind_eq_ok.mp hShape
  obtain ⟨coreCount, hC, hShape⟩ := except_bind_eq_ok.mp hShape
  obtain ⟨busCount, -, hShape⟩ := except_bind_eq_ok.mp hShape
  obtain ⟨probeCount, hP, hShape⟩ := except_bind_eq_ok.mp hShape
  cases hShape
  -- and the others
  unfold ofShape at hOf
  obtain ⟨version, -, hOf⟩ := except_bind_eq_ok.mp hOf
  obtain ⟨id, -, hOf⟩ := except_bind_eq_ok.mp hOf
  obtain ⟨probesSum, hSum, hOf⟩ := except_bind_eq_ok.mp hOf
  obtain ⟨interfaces, hItf, hOf⟩ := except_bind_eq_ok.mp hOf
  cases hOf
  obtain ⟨hLength, hEach⟩ := List.forall₂_iff_get.mp (mapM_eq_ok_iff.mp hItf)
  refine ⟨hSlots, ?_, ParamTable.word32_eq_ok.mp hC, ParamTable.word32_eq_ok.mp hP,
    ParamTable.word32_eq_ok.mp hSum, hInterfaces, ?_, hShapeOk, hProbes⟩
  · rw [Mode.text_of_ofText? hModeText]
    exact ParamTable.text_eq_ok.mp hM
  · intro i itf hi
    obtain ⟨hlt, rfl⟩ := List.getElem?_eq_some_iff.mp hi
    have := hEach i (by rw [hLength]; exact hlt) hlt
    rw [List.get_eq_getElem, List.getElem_range, List.get_eq_getElem] at this
    exact fromTable_of_interfaceOf this

/-- The entry of the subsystem's section under the key of a slot. -/
theorem FromTable.get?_entries {s : Subsystem} (h : s.FromTable) (slot : Slot) {v : ParamValue}
    (hSlot : slot ∈ Slot.subsystemSlots) (hv : s.params.get? slot.key = some v) :
    Entries.get? s.params.entries slot.key = some v := by
  have hKeys : ∀ t ∈ Slot.subsystemSlots, t.key ≠ Entries.reservedKey := by decide
  exact ParamTable.get?_entries (h.slots ▸ hSlot) (hKeys slot hSlot) hv

end Subsystem

-- ---------------------------------------------------------------------------
-- The census
-- ---------------------------------------------------------------------------

theorem mem_insertCore {c core : Core} {cores : List Core} :
    c ∈ insertCore core cores ↔ c = core ∨ c ∈ cores := by
  induction cores with
  | nil => simp [insertCore]
  | cons first rest ih =>
    rw [insertCore]
    split
    · rw [List.mem_cons]
    · rw [List.mem_cons, ih, List.mem_cons]
      exact or_left_comm

namespace Census

/-- Everything in the census says what its table says. -/
def AllFromTables (census : Census) : Prop :=
  (∀ c ∈ census.cores, c.FromTable) ∧ ∀ s ∈ census.subsystems, s.FromTable

theorem fromTable_of_core? {rules : Rules} {m : Module} {c : Core}
    (h : (core? rules m).result = .ok (some c)) : c.FromTable := by
  unfold core? at h
  rw [Run.result_lift_bind] at h
  split at h
  · cases h
  case h_2 t hTable =>
    obtain ⟨built, hBuilt, h⟩ := Run.result_bind_eq_ok.mp h
    rw [Run.result_ofLogged] at h
    rw [Run.result_ofExcept] at hBuilt
    exact Core.fromTable_of_ofTable (ParamTable.slots_of_decode? hTable)
      (Core.ofTable_of_build hBuilt (Except.ok.inj h))

theorem fromTable_of_subsystem? {rules : Rules} {m : Module} {s : Subsystem}
    (h : (subsystem? rules m).result = .ok (some s)) : s.FromTable := by
  unfold subsystem? at h
  rw [Run.result_lift_bind] at h
  split at h
  · cases h
  case h_2 t hTable =>
    obtain ⟨built, hBuilt, h⟩ := Run.result_bind_eq_ok.mp h
    rw [Run.result_ofLogged] at h
    rw [Run.result_ofExcept] at hBuilt
    exact Subsystem.fromTable_of_build (ParamTable.slots_of_decode? hTable) hBuilt (Except.ok.inj h)

/-- Visiting one module keeps the census true to the tables. -/
theorem visit_allFromTables {rules : Rules} {census census' : Census} {m : Module}
    (hAll : census.AllFromTables) (h : (visit rules census m).result = .ok census') :
    census'.AllFromTables := by
  unfold visit at h
  split at h
  · cases h
    exact hAll
  · rw [Run.result_lift_bind] at h
    obtain ⟨found, hFound, h⟩ := Run.result_bind_eq_ok.mp h
    split at h
    · cases h
      refine ⟨fun c hc => ?_, hAll.2⟩
      rcases mem_insertCore.mp hc with rfl | hc
      · exact fromTable_of_core? hFound
      · exact hAll.1 c hc
    · cases h
      exact hAll
  · rw [Run.result_lift_bind] at h
    obtain ⟨found, hFound, h⟩ := Run.result_bind_eq_ok.mp h
    split at h
    · cases h
      refine ⟨hAll.1, fun s hs => ?_⟩
      rcases List.mem_append.mp hs with hs | hs
      · exact hAll.2 s hs
      · rw [List.mem_singleton.mp hs]
        exact fromTable_of_subsystem? hFound
    · cases h
      exact hAll

theorem visitAll_allFromTables {rules : Rules} {ms : List Module} {census census' : Census}
    (hAll : census.AllFromTables) (h : (visitAll rules ms census).result = .ok census') :
    census'.AllFromTables := by
  induction ms generalizing census with
  | nil =>
    cases h
    exact hAll
  | cons m ms ih =>
    rw [visitAll] at h
    obtain ⟨next, hNext, h⟩ := Run.result_bind_eq_ok.mp h
    exact ih (visit_allFromTables hAll hNext) h

/-- **A census is true to the tables it was taken from.** -/
theorem take_fromTable {rules : Rules} {d : Design} {census : Census}
    (h : (take rules d).result = .ok census) : census.AllFromTables := by
  have hEmpty : AllFromTables ⟨[], []⟩ := ⟨by simp, by simp⟩
  unfold take at h
  split at h
  · cases h
    exact hEmpty
  · exact visitAll_allFromTables hEmpty h

end Census

end ProbeAtlas
