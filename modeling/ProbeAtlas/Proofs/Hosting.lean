import Mathlib.Algebra.BigOperators.Group.List.Basic
import Mathlib.Algebra.Ring.Nat
import ProbeAtlas.Proofs.Qualification

/-!
# ProbeAtlas — cores in their places

In the end every core stands in the subsystem where the layout puts it, with the probes and the address
of its interface (`Subsystem.Hosts`). From this and from the two sums that the cross-check compares it
follows how the cores share the probes. The native cores own all listed probes and the bridge, if there
is one, is the last core and owns none. The numbers of probes add up to the declared sum, and so a probe
that no core owns has no width.

How many probes the cores have together depends only on where they sit and on their numbers of probes
(`Subsystem.Seats`), not on how the analysis came to it.

Main results: `Analysis.Qualified.hosts`, `Seats.sum_probeCount` and `Hosts.probeWidth_unlisted`.
-/

namespace ProbeAtlas

-- ---------------------------------------------------------------------------
-- The cores in the end
-- ---------------------------------------------------------------------------

/-- The cores stand in the subsystem where the layout puts them. -/
structure Subsystem.Hosts (s : Subsystem) (l : Layout) (cores : List Core) : Prop where
  count       : cores.length = s.coreCount
  fromTable   : ∀ c ∈ cores, c.FromTable
  index       : ∀ (i : Nat) c, cores[i]? = some c → c.index = i
  bridge      : ∀ c ∈ cores, c.isBridge = (s.bridgeIndex? == some (c.index : Int))
  order       : ∀ c ∈ cores, l.order[c.index]? = some c.probeOrder
  address     : ∀ c ∈ cores, c.baseAddress = s.address c.index
  addresses   : (cores.map Core.baseAddress).Nodup
  width       : ∀ c ∈ cores, c.WidthAgrees s l
  declaredSum : (s.interfaces.map Interface.probeWidth).sum + Bench.bridgeProbes ⟨s, cores⟩ =
                  s.probesSum
  mappedSum   : l.coreWidth.sum + Bench.bridgeProbes ⟨s, cores⟩ = s.probesSum

/-- Cores do not change their places when they get their signals. -/
theorem Site.Wires.eq_settle {site : Site} {s : Subsystem} {l : Layout} {c c' : Core}
    (h : site.Wires (c.settle s l) c') : ∃ found, c' = { c.settle s l with probes := found } := by
  obtain ⟨found, -, hc⟩ := h
  exact ⟨found, hc⟩

/-- Nor does the number of probes of the bridge change. -/
theorem Bench.bridgeProbes_wired {site : Site} {s : Subsystem} {cores cores' : List Core}
    (h : List.Forall₂ site.Wires cores cores') :
    bridgeProbes ⟨s, cores'⟩ = bridgeProbes ⟨s, cores⟩ := by
  have hFind : (cores'.find? Core.isBridge).map Core.probeCount =
      (cores.find? Core.isBridge).map Core.probeCount := by
    induction h with
    | nil => rfl
    | cons hw _ ih =>
      obtain ⟨found, -, rfl⟩ := hw
      rw [List.find?_cons, List.find?_cons]
      dsimp only
      split
      · rfl
      · exact ih
  rw [bridgeProbes, bridgeProbes, hFind]

namespace Analysis.Qualified

variable {rules : Rules} {d : Design} {b found : Bench} {l : Layout} {t : Target}

/-- **The cores of a bench that qualified are where the layout puts them.** -/
theorem hosts (h : Qualified rules d b found l t) : found.subsystem.Hosts l b.cores := by
  have hWired := List.forall₂_map_left_iff.mp h.wired
  obtain ⟨hLength, hAt⟩ := List.forall₂_iff_get.mp hWired
  -- a core at the end is a core that was found, settled, and with some signal
  have hCore : ∀ (i : Nat) c', b.cores[i]? = some c' → ∃ c signal, found.cores[i]? = some c ∧
      c' = { c.settle found.subsystem l with probes := signal } := by
    intro i c' hi
    obtain ⟨hlt, rfl⟩ := List.getElem?_eq_some_iff.mp hi
    obtain ⟨signal, hSignal⟩ := (hAt i (hLength ▸ hlt) hlt).eq_settle
    exact ⟨_, signal, List.getElem?_eq_getElem (hLength ▸ hlt), hSignal⟩
  have hMem : ∀ c' ∈ b.cores, ∃ c ∈ found.cores, ∃ signal,
      c' = { c.settle found.subsystem l with probes := signal } := by
    intro c' hc'
    obtain ⟨i, hi⟩ := List.getElem?_of_mem hc'
    obtain ⟨c, signal, hc, hSignal⟩ := hCore i c' hi
    exact ⟨c, List.mem_of_getElem? hc, signal, hSignal⟩
  have hBridge : Bench.bridgeProbes ⟨found.subsystem, b.cores⟩ = (found.settled l).bridgeProbes :=
    Bench.bridgeProbes_wired h.wired
  have hAgree := h.agreement
  refine
    { count := by rw [← hLength, hAgree.coreCount]
      fromTable := ?fromTable, index := ?index, bridge := ?bridge, order := ?order, address := ?address, addresses := ?addresses
      width := ?width
      declaredSum := by rw [hBridge]; exact hAgree.declaredSum
      mappedSum := by rw [hBridge]; exact hAgree.mappedSum }
  case fromTable =>
    intro c' hc'
    obtain ⟨c, hc, signal, rfl⟩ := hMem c' hc'
    obtain ⟨hSlots, hIndex, hCount⟩ := h.cores c hc
    exact ⟨hSlots, hIndex, hCount⟩
  case index =>
    intro i c' hi
    obtain ⟨c, signal, hc, rfl⟩ := hCore i c' hi
    exact hAgree.index i c hc
  case bridge =>
    intro c' hc'
    obtain ⟨c, -, signal, rfl⟩ := hMem c' hc'
    rfl
  case order =>
    intro c' hc'
    obtain ⟨c, hc, signal, rfl⟩ := hMem c' hc'
    obtain ⟨order, hOrder⟩ := Option.isSome_iff_exists.mp (hAgree.owned c hc)
    show l.order[c.index]? = some ((l.order[c.index]?).getD [])
    rw [hOrder, Option.getD_some]
  case address =>
    intro c' hc'
    obtain ⟨c, -, signal, rfl⟩ := hMem c' hc'
    rfl
  case addresses =>
    have hSame : b.cores.map Core.baseAddress =
        found.cores.map fun c => found.subsystem.address c.index := by
      rw [eq_comm, ← List.forall₂_eq_eq_eq, List.forall₂_map_left_iff, List.forall₂_map_right_iff]
      refine hWired.imp fun c c' hw => ?_
      obtain ⟨signal, rfl⟩ := hw.eq_settle
      rfl
    rw [hSame]
    exact hAgree.addresses
  case width =>
    intro c' hc'
    obtain ⟨c, hc, signal, rfl⟩ := hMem c' hc'
    exact hAgree.widths c hc

/-- The layout that was found fits. -/
theorem fits (h : Qualified rules d b found l t) : l.Fits found.subsystem :=
  Bench.layout_fits h.agreement.layout

end Analysis.Qualified

-- ---------------------------------------------------------------------------
-- Which core is the bridge
-- ---------------------------------------------------------------------------

namespace Subsystem

/-- A subsystem that is valid has the bridge behind all native cores. -/
theorem Shaped.bridgeIndex_iff {s : Subsystem} (h : s.Shaped) (i : Nat) :
    (s.bridgeIndex? == some (i : Int)) = true ↔ s.mode ≠ .native ∧ i + 1 = s.coreCount := by
  have hShape := h.shape
  rw [beq_iff_eq, bridgeIndex?, nativeCount]
  cases hMode : s.mode with
  | native => simp
  | bridge =>
    simp only [shapeOk, hMode, Bool.and_eq_true, beq_iff_eq] at hShape
    simp only [Option.some.injEq, ne_eq, reduceCtorEq, not_false_eq_true, true_and]
    omega
  | nativeAndBridge =>
    simp only [Option.some.injEq, ne_eq, reduceCtorEq, not_false_eq_true, true_and]
    omega

/-- The cores that are not the bridge are the native ones. -/
theorem Shaped.native_iff {s : Subsystem} (h : s.Shaped) {i : Nat} (hi : i < s.coreCount) :
    (s.bridgeIndex? == some (i : Int)) = false ↔ (i : Int) < s.nativeCount := by
  have hShape := h.shape
  rw [← Bool.not_eq_true, h.bridgeIndex_iff, nativeCount]
  cases hMode : s.mode with
  | native => simpa using hi
  | bridge =>
    simp only [shapeOk, hMode, Bool.and_eq_true, beq_iff_eq] at hShape
    simp only [ne_eq, reduceCtorEq, not_false_eq_true, true_and]
    omega
  | nativeAndBridge =>
    simp only [ne_eq, reduceCtorEq, not_false_eq_true, true_and]
    omega

theorem Shaped.coreCount_le {s : Subsystem} (h : s.Shaped) : s.coreCount ≤ interfaceCount := by
  have hShape := h.shape
  unfold shapeOk at hShape
  split at hShape <;> simp only [Bool.and_eq_true, decide_eq_true_eq, beq_iff_eq] at hShape
  · exact hShape.2
  · rw [hShape.2]
    decide
  · exact hShape.2

end Subsystem

-- ---------------------------------------------------------------------------
-- Widths of probes
-- ---------------------------------------------------------------------------

namespace Layout

variable {s : Subsystem} {l : Layout}

/-- Together they take what all listed probes take. -/
theorem Sound.sum_coreWidth (h : l.Sound s) : l.coreWidth.sum = s.span l.order.flatten := by
  rw [h.coreWidth_eq, Subsystem.span, List.map_flatten, List.sum_flatten, List.map_map]
  rfl

/-- A layout that fits lists the probes from the first to the last, in some order. -/
theorem Fits.flatten_perm (h : l.Fits s) (hMode : s.mode ≠ .bridge) :
    l.order.flatten.Perm (List.range s.probeCount) := by
  have hSubset : l.order.flatten ⊆ List.range s.probeCount := by
    intro p hp
    exact List.mem_range.mpr (lt_of_lt_of_le (h.sound.known p hp) (Nat.min_le_right _ _))
  have hSub := List.subperm_of_subset h.sound.nodup hSubset
  exact hSub.perm_of_length_le (by rw [List.length_range, h.count hMode])

end Layout

/-- Some probes below a bound take as many bits as all of them exactly if the others take none. -/
theorem Subsystem.span_range_eq_iff {s : Subsystem} {ps : List Nat} {n : Nat} (hNodup : ps.Nodup)
    (hBound : ∀ q ∈ ps, q < n) :
    s.span (List.range n) = s.span ps ↔ ∀ p < n, p ∉ ps → s.probeWidth p = 0 := by
  obtain ⟨qs, hPerm, hSublist⟩ : ps.Subperm (List.range n) :=
    List.subperm_of_subset hNodup fun q hq => List.mem_range.mpr (hBound q hq)
  obtain ⟨rest, hRest⟩ := hSublist.exists_perm_append
  have hAll : (List.range n).Perm (ps ++ rest) := hRest.trans (hPerm.append_right rest)
  have hApart := (List.nodup_append.mp (hAll.nodup_iff.mp List.nodup_range)).2.2
  rw [span_perm hAll, span_append, Nat.add_eq_left, span, List.sum_eq_zero_iff_forall_eq_nat,
    List.forall_mem_map]
  constructor
  · intro hZero p hp hOther
    have hMem := hAll.mem_iff.mp (List.mem_range.mpr hp)
    exact hZero p ((List.mem_append.mp hMem).resolve_left hOther)
  · intro hZero p hp
    have hMem := hAll.mem_iff.mpr (List.mem_append_right _ hp)
    exact hZero p (List.mem_range.mp hMem) fun hps => hApart p hps p hp rfl

/-- The listed probes take all that was declared exactly if the others take none. -/
theorem Layout.Sound.span_eq_iff {s : Subsystem} {l : Layout} (h : l.Sound s) :
    s.span (List.range interfaceCount) = s.span l.order.flatten ↔
      ∀ p < interfaceCount, p ∉ l.order.flatten → s.probeWidth p = 0 :=
  Subsystem.span_range_eq_iff h.nodup fun q hq => lt_of_lt_of_le (h.known q hq) (Nat.min_le_left _ _)

/-- The declared widths are the widths of all positions. -/
theorem Subsystem.Shaped.sum_widths {s : Subsystem} (h : s.Shaped) :
    (s.interfaces.map Interface.probeWidth).sum = s.span (List.range interfaceCount) := by
  have hMap : s.interfaces.map Interface.probeWidth =
      (List.range interfaceCount).map s.probeWidth := by
    refine List.ext_getElem (by rw [List.length_map, List.length_map, List.length_range,
      h.interfaces]) fun i hi _ => ?_
    rw [List.length_map] at hi
    rw [List.getElem_map, List.getElem_map, List.getElem_range, probeWidth,
      List.getElem?_eq_getElem hi, Option.map_some, Option.getD_some]
  rw [hMap, span]

-- ---------------------------------------------------------------------------
-- Cores and their numbers of probes
-- ---------------------------------------------------------------------------

/-- If at most one core is a bridge, the first bridge accounts for all of them. -/
theorem sum_bridges {cores : List Core}
    (h : cores.Pairwise fun c c' => ¬(c.isBridge = true ∧ c'.isBridge = true)) :
    (cores.map fun c => if c.isBridge then c.probeCount else 0).sum =
      ((cores.find? Core.isBridge).map Core.probeCount).getD 0 := by
  induction cores with
  | nil => rfl
  | cons c cs ih =>
    obtain ⟨hFirst, hRest⟩ := List.pairwise_cons.mp h
    rw [List.map_cons, List.sum_cons]
    cases hc : c.isBridge with
    | false =>
      rw [List.find?_cons_of_neg (by rw [hc]; decide), ih hRest, if_neg (by decide), Nat.zero_add]
    | true =>
      have hNone : ∀ c' ∈ cs, (if c'.isBridge then c'.probeCount else 0) = 0 := by
        intro c' hc'
        exact if_neg fun hBridge => hFirst c' hc' ⟨hc, hBridge⟩
      rw [List.find?_cons_of_pos hc, if_pos rfl, List.map_congr_left hNone]
      simp

/-- The cores sit at the interfaces of their indices, and each of them has as many probes as its place
asks for. -/
structure Subsystem.Seats (s : Subsystem) (l : Layout) (cores : List Core) : Prop where
  count  : cores.length = s.coreCount
  index  : ∀ (i : Nat) c, cores[i]? = some c → c.index = i
  bridge : ∀ c ∈ cores, c.isBridge = (s.bridgeIndex? == some (c.index : Int))
  width  : ∀ c ∈ cores, c.WidthAgrees s l

namespace Subsystem.Seats

variable {s : Subsystem} {l : Layout} {cores : List Core}

theorem index_lt (h : s.Seats l cores) {c : Core} (hc : c ∈ cores) : c.index < s.coreCount := by
  obtain ⟨i, hi⟩ := List.getElem?_of_mem hc
  rw [h.index i c hi, ← h.count]
  exact (List.getElem?_eq_some_iff.mp hi).1

/-- Only the core behind the native ones is a bridge. -/
theorem isBridge_iff (h : s.Seats l cores) (hShaped : s.Shaped) {c : Core} (hc : c ∈ cores) :
    c.isBridge = true ↔ s.mode ≠ .native ∧ c.index + 1 = s.coreCount := by
  rw [h.bridge c hc]
  exact hShaped.bridgeIndex_iff c.index

/-- A core has the probes of its interface, and a bridge its own besides. -/
theorem probeCount_eq (h : s.Seats l cores) {c : Core} (hc : c ∈ cores) :
    c.probeCount = l.widthAt c.index + if c.isBridge then c.probeCount else 0 := by
  have hWidth := h.width c hc
  unfold Core.WidthAgrees at hWidth
  split at hWidth
  · next hBridge =>
    obtain ⟨-, -, -, hNone⟩ := hWidth
    rw [hNone, if_pos hBridge, Nat.zero_add]
  · next hNative => rw [if_neg hNative, ← hWidth, Nat.add_zero]

/-- The interfaces of the cores take all that the layout lists. -/
theorem sum_widthAt (h : s.Seats l cores) (hShaped : s.Shaped) (hFits : l.Fits s) :
    (cores.map fun c => l.widthAt c.index).sum = l.coreWidth.sum := by
  have hTake : (cores.map fun c => l.widthAt c.index) = l.coreWidth.take cores.length := by
    refine List.ext_getElem? fun i => ?_
    rw [List.getElem?_map, List.getElem?_take]
    cases hi : cores[i]? with
    | none => rw [if_neg (Nat.not_lt.mpr (List.getElem?_eq_none_iff.mp hi)), Option.map_none]
    | some c =>
      have hLt : i < cores.length := (List.getElem?_eq_some_iff.mp hi).1
      have hWidth : i < l.coreWidth.length := by
        rw [hFits.sound.width_length]
        exact lt_of_lt_of_le (h.count ▸ hLt) hShaped.coreCount_le
      rw [if_pos hLt, Option.map_some, h.index i c hi, Layout.widthAt, List.getElem?_eq_getElem hWidth,
        Option.getD_some]
  -- the interfaces behind the last core own nothing
  have hDrop : (l.coreWidth.drop cores.length).sum = 0 := by
    refine List.sum_eq_zero fun w hw => ?_
    obtain ⟨j, hj⟩ := List.getElem?_of_mem hw
    rw [List.getElem?_drop] at hj
    have hLt := (List.getElem?_eq_some_iff.mp hj).1
    rw [hFits.sound.width_length] at hLt
    have hNative : s.nativeCount ≤ ((cores.length + j : Nat) : Int) := by
      rw [nativeCount, h.count]
      split <;> omega
    rw [hFits.sound.coreWidth _ _ (hFits.others _ hNative hLt)] at hj
    exact (Option.some.inj hj).symm
  rw [hTake]
  conv_rhs => rw [← List.take_append_drop cores.length l.coreWidth, List.sum_append, hDrop]
  rw [Nat.add_zero]

/-- No two cores are bridges. -/
theorem sum_bridges (h : s.Seats l cores) (hShaped : s.Shaped) :
    (cores.map fun c => if c.isBridge then c.probeCount else 0).sum =
      Bench.bridgeProbes ⟨s, cores⟩ := by
  rw [ProbeAtlas.sum_bridges, Bench.bridgeProbes]
  · split
    · next hMode =>
      have hNone : cores.find? Core.isBridge = none := by
        refine List.find?_eq_none.mpr fun c hc hBridge => ?_
        exact ((h.isBridge_iff hShaped hc).mp hBridge).1 hMode
      rw [hNone, Option.map_none, Option.getD_none]
    · rfl
  · refine List.pairwise_iff_getElem.mpr fun i j hi hj hij hBoth => ?_
    have hIndex := h.index i _ (List.getElem?_eq_getElem hi)
    have hIndex' := h.index j _ (List.getElem?_eq_getElem hj)
    have hLast := ((h.isBridge_iff hShaped (List.getElem_mem hi)).mp hBoth.1).2
    have hLast' := ((h.isBridge_iff hShaped (List.getElem_mem hj)).mp hBoth.2).2
    omega

/-- **The cores have the probes that the layout lists and those of the bridge.** -/
theorem sum_probeCount (h : s.Seats l cores) (hShaped : s.Shaped) (hFits : l.Fits s) :
    (cores.map Core.probeCount).sum = l.coreWidth.sum + Bench.bridgeProbes ⟨s, cores⟩ := by
  calc (cores.map Core.probeCount).sum
      = (cores.map fun c => l.widthAt c.index + if c.isBridge then c.probeCount else 0).sum := by
        rw [List.map_congr_left fun c hc => h.probeCount_eq hc]
    _ = l.coreWidth.sum + Bench.bridgeProbes ⟨s, cores⟩ := by
        rw [List.sum_map_add, h.sum_widthAt hShaped hFits, h.sum_bridges hShaped]

end Subsystem.Seats

namespace Subsystem.Hosts

variable {s : Subsystem} {l : Layout} {cores : List Core}

theorem seats (h : s.Hosts l cores) : s.Seats l cores :=
  ⟨h.count, h.index, h.bridge, h.width⟩

/-- A bridge owns no probes. -/
theorem probeOrder_bridge (h : s.Hosts l cores) (hTable : s.FromTable) (hFits : l.Fits s) {c : Core}
    (hc : c ∈ cores) (hBridge : c.isBridge = true) : c.probeOrder = [] := by
  have hNative : s.nativeCount ≤ (c.index : Int) := by
    rw [← Int.not_lt, ← hTable.shaped.native_iff (h.seats.index_lt hc), ← h.bridge c hc, hBridge]
    decide
  have hLt : c.index < interfaceCount := lt_of_lt_of_le (h.seats.index_lt hc) hTable.shaped.coreCount_le
  have hOrder := h.order c hc
  rw [hFits.others c.index hNative hLt] at hOrder
  exact (Option.some.inj hOrder).symm

/-- The cores own all probes that the layout lists. -/
theorem flatten_probeOrder (h : s.Hosts l cores) (hFits : l.Fits s) :
    (cores.map Core.probeOrder).flatten = l.order.flatten := by
  have hTake : cores.map Core.probeOrder = l.order.take cores.length := by
    refine List.ext_getElem? fun i => ?_
    rw [List.getElem?_map, List.getElem?_take]
    cases hi : cores[i]? with
    | none => rw [if_neg (Nat.not_lt.mpr (List.getElem?_eq_none_iff.mp hi)), Option.map_none]
    | some c =>
      rw [if_pos (List.getElem?_eq_some_iff.mp hi).1, Option.map_some,
        ← h.order c (List.mem_of_getElem? hi), h.index i c hi]
  -- the interfaces behind the last core own nothing
  have hDrop : (l.order.drop cores.length).flatten = [] := by
    refine List.flatten_eq_nil_iff.mpr fun order hOrder => ?_
    obtain ⟨j, hj⟩ := List.getElem?_of_mem hOrder
    rw [List.getElem?_drop] at hj
    have hLt := (List.getElem?_eq_some_iff.mp hj).1
    rw [hFits.sound.order_length] at hLt
    have hNative : s.nativeCount ≤ ((cores.length + j : Nat) : Int) := by
      rw [nativeCount, h.count]
      split <;> omega
    rw [hFits.others _ hNative hLt] at hj
    exact (Option.some.inj hj).symm
  conv_rhs => rw [← List.take_append_drop cores.length l.order, List.flatten_append, hDrop]
  rw [hTake, List.append_nil]

/-- **The numbers of probes of the cores add up to the declared sum.** -/
theorem sum_probeCount (h : s.Hosts l cores) (hTable : s.FromTable) (hFits : l.Fits s) :
    (cores.map Core.probeCount).sum = s.probesSum :=
  (h.seats.sum_probeCount hTable.shaped hFits).trans h.mappedSum

/-- **A probe that no core owns has no width.** Both the widths of all probes and the widths of the
listed ones have to make up the declared sum. -/
theorem probeWidth_unlisted (h : s.Hosts l cores) (hTable : s.FromTable) (hFits : l.Fits s) {p : Nat}
    (hp : p < interfaceCount) (hOther : p ∉ l.order.flatten) : s.probeWidth p = 0 := by
  have hDeclared := h.declaredSum
  have hMapped := h.mappedSum
  rw [hTable.shaped.sum_widths] at hDeclared
  rw [hFits.sound.sum_coreWidth] at hMapped
  exact hFits.sound.span_eq_iff.mp (by omega) p hp hOther

end Subsystem.Hosts

end ProbeAtlas
