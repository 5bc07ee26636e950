import ProbeAtlas.Proofs.Decoding

/-!
# ProbeAtlas — the census as a function

Taking the census goes through the modules one by one, posts what it finds, and could end with a fault
where a table does not hold what a core or a subsystem is built from. It never does: a decoded table has
a value of the right kind under every key. So a census is what `Census.coreOf?` and
`Census.subsystemOf?` make of the modules, each looked at for itself, and the cores stand in the order of
their indices.

Main results:

* `Census.take_result` — the census of a design, with no fault.
* `Census.perm_enlist`, `Census.sorted_enlist` — what is kept of the order of the modules.
-/

namespace ProbeAtlas

-- ---------------------------------------------------------------------------
-- Building from a decoded table
-- ---------------------------------------------------------------------------

/-- A chain ends with a value if its parts do. -/
theorem except_bind_total {α β ε : Type} {x : Except ε α} {f : α → Except ε β} (hx : ∃ a, x = .ok a)
    (hf : ∀ a, x = .ok a → ∃ b, f a = .ok b) : ∃ b, (x >>= f) = .ok b := by
  obtain ⟨a, ha⟩ := hx
  obtain ⟨b, hb⟩ := hf a ha
  exact ⟨b, except_bind_eq_ok.mpr ⟨a, ha, hb⟩⟩

/-- A traversal ends with a value if every item does. -/
theorem mapM_total {α β ε : Type} {f : α → Except ε β} {xs : List α} (h : ∀ x ∈ xs, ∃ y, f x = .ok y) :
    ∃ ys, xs.mapM f = .ok ys := by
  induction xs with
  | nil => exact ⟨[], rfl⟩
  | cons x xs ih =>
    obtain ⟨hFirst, hRest⟩ := List.forall_mem_cons.mp h
    rw [List.mapM_cons]
    exact except_bind_total hFirst fun y _ => except_bind_total (ih hRest) fun ys _ => ⟨y :: ys, rfl⟩

namespace Core

variable {name : String} {t : ParamTable}

theorem ofTable_total (h : t.Typed) (hSlots : t.slots = Slot.coreSlots) (name : String) :
    ∃ c, ofTable name t = .ok c := by
  have hWord : ∀ key, ⟨key, .word32⟩ ∈ Slot.coreSlots → ∃ n, t.word32 key = .ok n :=
    fun key hKey => h.word32 key (hSlots ▸ hKey)
  refine except_bind_total (h.text "IP_TYPE" (hSlots ▸ by decide)) fun type _ => ?_
  refine except_bind_total (hWord "IP_VERSION" (by decide)) fun version _ => ?_
  refine except_bind_total (hWord "IP_ID" (by decide)) fun id _ => ?_
  refine except_bind_total (hWord "INDEX" (by decide)) fun index _ => ?_
  refine except_bind_total (hWord "MEM_DEPTH" (by decide)) fun memDepth _ => ?_
  refine except_bind_total (hWord "NO_OF_PROBES" (by decide)) fun probeCount _ => ?_
  refine except_bind_total (hWord "AXI_ADDR_WIDTH" (by decide)) fun addrWidth _ => ?_
  refine except_bind_total (hWord "AXI_DATA_WIDTH" (by decide)) fun dataWidth _ => ?_
  exact ⟨_, rfl⟩

/-- A core has no signal when it is built. -/
theorem probes_of_ofTable {c : Core} (h : ofTable name t = .ok c) : c.probes = [] := by
  unfold ofTable at h
  obtain ⟨type, -, h⟩ := except_bind_eq_ok.mp h
  obtain ⟨version, -, h⟩ := except_bind_eq_ok.mp h
  obtain ⟨id, -, h⟩ := except_bind_eq_ok.mp h
  obtain ⟨index, -, h⟩ := except_bind_eq_ok.mp h
  obtain ⟨memDepth, -, h⟩ := except_bind_eq_ok.mp h
  obtain ⟨probeCount, -, h⟩ := except_bind_eq_ok.mp h
  obtain ⟨addrWidth, -, h⟩ := except_bind_eq_ok.mp h
  obtain ⟨dataWidth, -, h⟩ := except_bind_eq_ok.mp h
  cases h
  rfl

end Core

namespace Subsystem

variable {t : ParamTable}

theorem interfaceOf_total (h : t.Typed) (hSlots : t.slots = Slot.subsystemSlots) {i : Nat}
    (hi : i < interfaceCount) : ∃ itf, interfaceOf t i = .ok itf := by
  have hKeys : ∀ slot ∈ [⟨Slot.widthKey i, .word32⟩, ⟨Slot.addressKey i, .word32⟩,
      (⟨Slot.packedKey i, .word64⟩ : Slot)], slot ∈ t.slots := by
    intro slot hSlot
    rw [hSlots, Slot.subsystemSlots, List.mem_append]
    exact Or.inr (List.mem_flatMap.mpr ⟨i, List.mem_range.mpr hi, hSlot⟩)
  refine except_bind_total (h.word32 (Slot.widthKey i) (hKeys _ (by simp))) fun width _ => ?_
  refine except_bind_total (h.word32 (Slot.addressKey i) (hKeys _ (by simp))) fun address _ => ?_
  refine except_bind_total (h.word64 (Slot.packedKey i) (hKeys _ (by simp))) fun packed _ => ?_
  exact ⟨_, rfl⟩

section Total

variable (h : t.Typed) (hSlots : t.slots = Slot.subsystemSlots)

include h hSlots

theorem Shape.ofTable_total : ∃ shape, Shape.ofTable t = .ok shape := by
  have hWord : ∀ key, ⟨key, .word32⟩ ∈ Slot.subsystemSlots → ∃ n, t.word32 key = .ok n :=
    fun key hKey => h.word32 key (hSlots ▸ hKey)
  have hText : ∀ key, ⟨key, .text⟩ ∈ Slot.subsystemSlots → ∃ s, t.text key = .ok s :=
    fun key hKey => h.text key (hSlots ▸ hKey)
  refine except_bind_total (hText "IP_TYPE" (by decide)) fun type _ => ?_
  refine except_bind_total (hText "Mode" (by decide)) fun modeText _ => ?_
  refine except_bind_total (hText "Axi_Type" (by decide)) fun busText _ => ?_
  refine except_bind_total (hWord "Cores" (by decide)) fun coreCount _ => ?_
  refine except_bind_total (hWord "No_AXI_Bus" (by decide)) fun busCount _ => ?_
  refine except_bind_total (hWord "No_Probes" (by decide)) fun probeCount _ => ?_
  exact ⟨_, rfl⟩

theorem ofShape_total (name : String) (shape : Shape) (mode : Mode) :
    ∃ s, ofShape name t shape mode = .ok s := by
  have hWord : ∀ key, ⟨key, .word32⟩ ∈ Slot.subsystemSlots → ∃ n, t.word32 key = .ok n :=
    fun key hKey => h.word32 key (hSlots ▸ hKey)
  refine except_bind_total (hWord "IP_VERSION" (by decide)) fun version _ => ?_
  refine except_bind_total (hWord "IP_ID" (by decide)) fun id _ => ?_
  refine except_bind_total (hWord "Probes_Sum" (by decide)) fun probesSum _ => ?_
  refine except_bind_total (mapM_total fun i hi => ?_) fun interfaces _ => ⟨_, rfl⟩
  exact interfaceOf_total h hSlots (List.mem_range.mp hi)

theorem build_total (name ipType : String) : ∃ built, build name t ipType = .ok built := by
  refine except_bind_total (Shape.ofTable_total h hSlots) fun shape _ => ?_
  split
  · exact ⟨_, rfl⟩
  · exact except_bind_total (ofShape_total h hSlots name shape _) fun s _ => ⟨_, rfl⟩

end Total

/-- A subsystem has no layout when it is built. -/
theorem layout_of_ofShape {name : String} {shape : Shape} {mode : Mode} {s : Subsystem}
    (h : ofShape name t shape mode = .ok s) : s.layout = none := by
  unfold ofShape at h
  obtain ⟨version, -, h⟩ := except_bind_eq_ok.mp h
  obtain ⟨id, -, h⟩ := except_bind_eq_ok.mp h
  obtain ⟨probesSum, -, h⟩ := except_bind_eq_ok.mp h
  obtain ⟨interfaces, -, h⟩ := except_bind_eq_ok.mp h
  cases h
  rfl

end Subsystem

-- ---------------------------------------------------------------------------
-- One module
-- ---------------------------------------------------------------------------

namespace Census

variable {rules : Rules} {m : Module}

theorem core?_total (rules : Rules) (m : Module) : ∃ found, (core? rules m).result = .ok found := by
  unfold core?
  rw [Run.result_lift_bind]
  split
  · exact ⟨none, rfl⟩
  · next t hTable =>
    have hTyped := ParamTable.typed_of_decode? (by decide) hTable
    obtain ⟨c, hc⟩ := Core.ofTable_total hTyped (ParamTable.slots_of_decode? hTable) m.name
    refine ⟨(c.accept rules.ipType).value, Run.result_bind_eq_ok.mpr ⟨c.accept rules.ipType, ?_, rfl⟩⟩
    rw [Run.result_ofExcept, Core.build, hc]
    rfl

theorem subsystem?_total (rules : Rules) (m : Module) :
    ∃ found, (subsystem? rules m).result = .ok found := by
  unfold subsystem?
  rw [Run.result_lift_bind]
  split
  · exact ⟨none, rfl⟩
  · next t hTable =>
    have hTyped := ParamTable.typed_of_decode? (by decide) hTable
    obtain ⟨built, hBuilt⟩ :=
      Subsystem.build_total hTyped (ParamTable.slots_of_decode? hTable) m.name rules.ipType
    exact ⟨built.value, Run.result_bind_eq_ok.mpr ⟨built, hBuilt, rfl⟩⟩

/-- A module is a core iff its parameters describe a valid one. -/
theorem core?_eq_some {c : Core} : (core? rules m).result = .ok (some c) ↔
    ∃ t, (ParamTable.decode? Slot.coreSlots m.parameters).value = some t ∧
      Core.ofTable m.name t = .ok c ∧ c.isValid rules.ipType = true := by
  unfold core?
  rw [Run.result_lift_bind]
  constructor
  · intro h
    split at h
    · cases h
    · next t hTable =>
      obtain ⟨built, hBuilt, h⟩ := Run.result_bind_eq_ok.mp h
      obtain ⟨c', hc', hBuilt⟩ := except_bind_eq_ok.mp hBuilt
      cases hBuilt
      have hAccept : (c'.accept rules.ipType).value = some c := Except.ok.inj h
      unfold Core.accept at hAccept
      split at hAccept
      · next hValid =>
        cases hAccept
        exact ⟨t, hTable, hc', hValid⟩
      · cases hAccept
  · rintro ⟨t, hTable, hc, hValid⟩
    have hBuild : Core.build m.name t rules.ipType = .ok (c.accept rules.ipType) := by
      rw [Core.build, hc]
      rfl
    rw [hTable]
    refine Run.result_bind_eq_ok.mpr ⟨c.accept rules.ipType, hBuild, ?_⟩
    rw [Run.result_ofLogged, Core.accept, if_pos hValid]
    rfl

/-- A module is a subsystem iff its parameters describe one of a valid shape. -/
theorem subsystem?_eq_some {s : Subsystem} : (subsystem? rules m).result = .ok (some s) ↔
    ∃ t, (ParamTable.decode? Slot.subsystemSlots m.parameters).value = some t ∧
      ∃ shape mode, Subsystem.Shape.ofTable t = .ok shape ∧ shape.mode? rules.ipType = some mode ∧
        Subsystem.ofShape m.name t shape mode = .ok s := by
  unfold subsystem?
  rw [Run.result_lift_bind]
  constructor
  · intro h
    split at h
    · cases h
    · next t hTable =>
      obtain ⟨built, hBuilt, h⟩ := Run.result_bind_eq_ok.mp h
      exact ⟨t, hTable, Subsystem.ofShape_of_build hBuilt (Except.ok.inj h)⟩
  · rintro ⟨t, hTable, shape, mode, hShape, hMode, hs⟩
    have hBuild : Subsystem.build m.name t rules.ipType = .ok (pure (some s)) := by
      refine except_bind_eq_ok.mpr ⟨shape, hShape, ?_⟩
      rw [hMode]
      exact except_bind_eq_ok.mpr ⟨s, hs, rfl⟩
    rw [hTable]
    exact Run.result_bind_eq_ok.mpr ⟨pure (some s), hBuild, rfl⟩

/-- The core that a module is, if it has the name of one and its parameters qualify. -/
def coreOf? (rules : Rules) (m : Module) : Option Core :=
  if rules.role? m.name = some .core then (core? rules m).result.toOption.join else none

/-- The subsystem that a module is, if it has the name of one and its parameters qualify. -/
def subsystemOf? (rules : Rules) (m : Module) : Option Subsystem :=
  if rules.role? m.name = some .subsystem then (subsystem? rules m).result.toOption.join else none

theorem coreOf?_eq_some {c : Core} : coreOf? rules m = some c ↔
    rules.role? m.name = some .core ∧ (core? rules m).result = .ok (some c) := by
  obtain ⟨found, hFound⟩ := core?_total rules m
  unfold coreOf?
  rw [hFound]
  split <;> simp_all [Except.toOption]

theorem subsystemOf?_eq_some {s : Subsystem} : subsystemOf? rules m = some s ↔
    rules.role? m.name = some .subsystem ∧ (subsystem? rules m).result = .ok (some s) := by
  obtain ⟨found, hFound⟩ := subsystem?_total rules m
  unfold subsystemOf?
  rw [hFound]
  split <;> simp_all [Except.toOption]

-- ---------------------------------------------------------------------------
-- All modules
-- ---------------------------------------------------------------------------

/-- Puts cores one after another to those that are there, each by its index. -/
def enlist (cores found : List Core) : List Core :=
  found.foldl (fun cores c => insertCore c cores) cores

/-- **Visiting a module adds what it is**, and never ends with a fault. -/
theorem visit_result (rules : Rules) (census : Census) (m : Module) :
    (visit rules census m).result = .ok
      ⟨enlist census.cores (coreOf? rules m).toList,
        census.subsystems ++ (subsystemOf? rules m).toList⟩ := by
  obtain ⟨core, hCore⟩ := core?_total rules m
  obtain ⟨subsystem, hSubsystem⟩ := subsystem?_total rules m
  unfold visit coreOf? subsystemOf?
  cases hRole : rules.role? m.name with
  | none => simp [enlist]
  | some role =>
    cases role with
    | core =>
      rw [Run.result_lift_bind, Run.result_bind, hCore]
      cases core with
      | none =>
        dsimp only
        rw [Run.result_lift_bind]
        simp [enlist, Except.toOption]
      | some c =>
        dsimp only
        rw [Run.result_lift_bind]
        simp [enlist, Except.toOption]
    | subsystem =>
      rw [Run.result_lift_bind, Run.result_bind, hSubsystem]
      cases subsystem with
      | none =>
        dsimp only
        rw [Run.result_lift_bind]
        simp [enlist, Except.toOption]
      | some s =>
        dsimp only
        rw [Run.result_lift_bind]
        simp [enlist, Except.toOption]

theorem visitAll_result (rules : Rules) (ms : List Module) (census : Census) :
    (visitAll rules ms census).result = .ok
      ⟨enlist census.cores (ms.filterMap (coreOf? rules)),
        census.subsystems ++ ms.filterMap (subsystemOf? rules)⟩ := by
  induction ms generalizing census with
  | nil => simp [visitAll, enlist]
  | cons m ms ih =>
    rw [visitAll, Run.result_bind, visit_result]
    dsimp only
    rw [ih, List.filterMap_cons, List.filterMap_cons]
    cases coreOf? rules m <;> cases subsystemOf? rules m <;> simp [enlist]

/-- **The census of a design that has its hierarchy.** -/
theorem take_result (rules : Rules) {d : Design} (h : d.flattened = false) :
    (take rules d).result = .ok
      ⟨enlist [] (d.modules.filterMap (coreOf? rules)), d.modules.filterMap (subsystemOf? rules)⟩ := by
  unfold take
  rw [if_neg (by rw [h]; decide), visitAll_result]
  rfl

theorem take_flattened (rules : Rules) {d : Design} (h : d.flattened = true) :
    (take rules d).result = .ok ⟨[], []⟩ := by
  unfold take
  rw [if_pos h, Run.result_lift_bind]
  rfl

-- ---------------------------------------------------------------------------
-- The order of the cores
-- ---------------------------------------------------------------------------

theorem perm_insertCore (core : Core) (cores : List Core) :
    (insertCore core cores).Perm (core :: cores) := by
  induction cores with
  | nil => exact .refl _
  | cons c cs ih =>
    rw [insertCore]
    split
    · exact .refl _
    · exact (ih.cons c).trans (.swap core c cs)

/-- No core is lost and none is added. -/
theorem perm_enlist (cores found : List Core) : (enlist cores found).Perm (found ++ cores) := by
  induction found generalizing cores with
  | nil => exact .refl _
  | cons c rest ih =>
    have hRest : (enlist (insertCore c cores) rest).Perm (rest ++ (c :: cores)) :=
      (ih (insertCore c cores)).trans ((perm_insertCore c cores).append_left rest)
    exact hRest.trans List.perm_middle

theorem sorted_insertCore {core : Core} {cores : List Core}
    (h : cores.Pairwise fun c c' => c.index ≤ c'.index) :
    (insertCore core cores).Pairwise fun c c' => c.index ≤ c'.index := by
  induction cores with
  | nil => simp [insertCore]
  | cons c cs ih =>
    obtain ⟨hFirst, hRest⟩ := List.pairwise_cons.mp h
    rw [insertCore]
    split
    · next hLess =>
      refine List.pairwise_cons.mpr ⟨fun c' hc' => ?_, h⟩
      rcases List.mem_cons.mp hc' with rfl | hc'
      · exact Nat.le_of_lt hLess
      · exact Nat.le_trans (Nat.le_of_lt hLess) (hFirst c' hc')
    · next hLe =>
      refine List.pairwise_cons.mpr ⟨fun c' hc' => ?_, ih hRest⟩
      rcases mem_insertCore.mp hc' with rfl | hc'
      · omega
      · exact hFirst c' hc'

/-- The cores stand by their indices. -/
theorem sorted_enlist {cores found : List Core}
    (h : cores.Pairwise fun c c' => c.index ≤ c'.index) :
    (enlist cores found).Pairwise fun c c' => c.index ≤ c'.index := by
  induction found generalizing cores with
  | nil => exact h
  | cons c rest ih => exact ih (sorted_insertCore h)

end Census

end ProbeAtlas
