import Mathlib.Algebra.BigOperators.Group.List.Basic
import Mathlib.Algebra.Ring.Nat
import ProbeAtlas.Proofs.Hosting
import ProbeAtlas.Proofs.Packing

/-!
# ProbeAtlas — what the cross-check accepts

The eleven checks stop at the first that fails, two of them change the bench on the way, and several
overlap. `Bench.Consistent` says what they amount to in terms of the numbers that the subsystem and the
cores declare, without a layout and without an order of checks.

The proof has two halves. `Bench.crossCheck_answers` follows the checks: on a subsystem that was built,
each of them ends with a verdict, and the verdict is positive if the bench agrees in all points. The
other half is about numbers only: a bench agrees in all points (`Bench.Agreement`) exactly if it is
consistent. That no unlisted probe has a width is nowhere checked; it is what remains of two sums that
both have to equal the declared one.

Main result: `Bench.crossCheck_accepts`.
-/

namespace ProbeAtlas

-- ---------------------------------------------------------------------------
-- Stages that answer
-- ---------------------------------------------------------------------------

/-- The stage ends with a verdict, which is positive if the proposition holds. -/
def Answers (r : Except Fault Bool) (P : Prop) : Prop :=
  ∃ verdict, r = .ok verdict ∧ (P → verdict = true)

namespace Answers

variable {P Q : Prop}

theorem imp {r : Except Fault Bool} (h : Answers r Q) (hImp : P → Q) : Answers r P := by
  obtain ⟨verdict, hr, hVerdict⟩ := h
  exact ⟨verdict, hr, fun hP => hVerdict (hImp hP)⟩

theorem lift {x : Logged Bool} (h : P → x.value = true) : Answers (liftM x : Run Bool).result P :=
  ⟨x.value, rfl, h⟩

/-- Of two steps the second has to answer only if the first one passes. -/
theorem andThen {s : Step} {next : Bench → Step} (h : Answers s.result P)
    (hNext : s.result = .ok true → Answers (next s.bench).result P) :
    Answers (s.andThen next).result P := by
  obtain ⟨verdict, hr, hVerdict⟩ := h
  cases verdict with
  | true =>
    rw [(Step.andThen_of_passed hr next).1]
    exact hNext hr
  | false =>
    have hStop : s.andThen next = s := by
      rw [Step.andThen, hr]
    rw [hStop]
    exact ⟨false, hr, hVerdict⟩

end Answers

namespace Bench

-- ---------------------------------------------------------------------------
-- The checks
-- ---------------------------------------------------------------------------

theorem checkBusPorts_value_of {b : Bench} (h : ∀ c ∈ b.cores, ∀ c' ∈ b.cores,
    c.addrWidth = c'.addrWidth ∧ c.dataWidth = c'.dataWidth) : b.checkBusPorts.value = true := by
  unfold checkBusPorts
  split
  · rfl
  next first rest hCores =>
    rw [Logged.value_bind, complainEach_value_iff]
    intro c hc
    exact if_pos (h c hc first (hCores ▸ List.mem_cons_self ..))

/-! ## The layout -/

theorem placeCores_of_owned {s : Subsystem} {l : Layout} {cores : List Core}
    (h : ∀ c ∈ cores, (l.order[c.index]?).isSome) : (placeCores s l cores).2 = .ok () := by
  induction cores with
  | nil => rfl
  | cons c cs ih =>
    obtain ⟨hFirst, hRest⟩ := List.forall_mem_cons.mp h
    obtain ⟨order, hOrder⟩ := Option.isSome_iff_exists.mp hFirst
    rw [placeCores, hOrder]
    exact ih hRest

end Bench

/-- The probe numbers that belong to the native interfaces. A subsystem that is a bridge only has no such
interfaces, and its words are not looked at. -/
def Subsystem.Assigns (s : Subsystem) (lists : List (List Nat)) : Prop :=
  if s.mode = .bridge then lists = [] else s.Packs lists

namespace Subsystem

variable {s : Subsystem} {lists : List (List Nat)} {l : Layout}

theorem Shaped.nativeCount_bounds (h : s.Shaped) :
    0 ≤ s.nativeCount ∧ s.nativeCount ≤ interfaceCount ∧
      ∀ i, s.bridgeIndex? = some i → i < interfaceCount := by
  have hCount := h.coreCount_le
  have hShape := h.shape
  unfold bridgeIndex? nativeCount
  cases hMode : s.mode with
  | native =>
    dsimp only
    exact ⟨by omega, by omega, by simp⟩
  | bridge =>
    dsimp only
    exact ⟨by omega, by omega, fun i hi => Option.some.inj hi ▸ by decide⟩
  | nativeAndBridge =>
    simp only [shapeOk, hMode, Bool.and_eq_true, decide_eq_true_eq] at hShape
    dsimp only
    exact ⟨by omega, by omega, fun i hi => by have := Option.some.inj hi; omega⟩

/-- A bridge has a bus. -/
theorem Shaped.bus_of_bridge (h : s.Shaped) {i : Nat}
    (hBridge : (s.bridgeIndex? == some (i : Int)) = true) : s.bus.isSome := by
  have hShape := h.shape
  have hMode := ((h.bridgeIndex_iff i).mp hBridge).1
  unfold shapeOk at hShape
  split at hShape
  · contradiction
  · simp only [Bool.and_eq_true] at hShape
    exact hShape.1.1
  · simp only [Bool.and_eq_true] at hShape
    exact hShape.1.1.1

theorem Assigns.length_eq (h : s.Assigns lists) : (lists.length : Int) = s.nativeCount := by
  unfold Assigns at h
  split at h
  · next hMode => rw [h, nativeCount, hMode]; rfl
  · exact h.count

theorem Assigns.pos (h : s.Assigns lists) {p : Nat} (hp : p ∈ lists.flatten) : 1 ≤ p := by
  unfold Assigns at h
  split at h
  · rw [h] at hp
    cases hp
  · exact h.pos hp

theorem describes_empty : Layout.empty.Describes s [] := by
  have hSound := Layout.sound_empty s
  refine ⟨rfl, hSound.owner_length, fun p i offset => iff_of_false ?_ ?_, hSound.coreWidth_eq⟩
  · simp
  · rintro ⟨before, after, hOrder, -⟩
    have := List.eq_of_mem_replicate (List.mem_of_getElem? hOrder)
    simp at this

end Subsystem

namespace Bench

variable {b : Bench} {lists : List (List Nat)} {l : Layout}

/-- **Looking for the layout ends with a verdict**, and finds one exactly if the words assign probes. -/
theorem layout_assigns (h : b.subsystem.Shaped) :
    (∃ found, b.layout.result = .ok found) ∧
      ((∃ l, b.layout.result = .ok (some l)) ↔ ∃ lists, b.subsystem.Assigns lists) ∧
      ∀ l lists, b.layout.result = .ok (some l) → b.subsystem.Assigns lists →
        l.Describes b.subsystem lists := by
  obtain ⟨-, hNative, hBridge⟩ := h.nativeCount_bounds
  unfold layout
  rw [Run.result_lift_bind]
  by_cases hMode : b.subsystem.mode = .bridge
  · simp only [if_pos hMode, Subsystem.Assigns]
    refine ⟨⟨_, rfl⟩, ⟨fun _ => ⟨[], rfl⟩, fun _ => ⟨_, rfl⟩⟩, ?_⟩
    rintro l lists hl rfl
    cases hl
    exact Subsystem.describes_empty
  · simp only [if_neg hMode, Subsystem.Assigns]
    obtain ⟨found, hFound, -⟩ := Subsystem.decodeLayout_result h.interfaces hNative
    have hIff : ∀ l, b.subsystem.decodeLayout.result = .ok (some l) ↔
        (∃ lists, b.subsystem.Packs lists) ∧ b.subsystem.give Layout.empty b.subsystem.allJobs = l := by
      intro l
      rw [Subsystem.decodeLayout_eq_some_iff h.interfaces hNative, and_iff_right hBridge]
    refine ⟨⟨found, hFound⟩, ⟨?_, ?_⟩, fun l lists hl hPacks => ?_⟩
    · rintro ⟨l, hl⟩
      exact ((hIff l).mp hl).1
    · intro hPacks
      exact ⟨_, (hIff _).mpr ⟨hPacks, rfl⟩⟩
    obtain ⟨-, rfl⟩ := (hIff l).mp hl
    exact Subsystem.describes_unpacked h.interfaces hNative hPacks

/-- Storing the layout ends with a verdict if the cores have interfaces. -/
theorem checkLayout_answers {P : Prop} (h : b.subsystem.Shaped) (hNone : b.subsystem.layout = none)
    (hIndex : ∀ c ∈ b.cores, c.index < interfaceCount)
    (hP : P → ∃ l, b.layout.result = .ok (some l)) : Answers b.checkLayout.result P := by
  obtain ⟨⟨found, hFound⟩, -⟩ := layout_assigns h
  unfold checkLayout
  dsimp only
  rw [hFound] at hP ⊢
  cases found with
  | none =>
    refine ⟨false, rfl, fun hp => ?_⟩
    obtain ⟨l, hl⟩ := hP hp
    cases hl
  | some l =>
    have hOwned : ∀ c ∈ b.cores, (l.order[c.index]?).isSome := by
      intro c hc
      rw [isSome_getElem?, (layout_fits hFound).sound.order_length]
      exact hIndex c hc
    dsimp only
    rw [if_neg (by rw [hNone]; decide), placeCores_of_owned hOwned]
    exact ⟨true, rfl, fun _ => rfl⟩

/-! ## Widths and sums -/

theorem widthComplaint_answers {s : Subsystem} {c : Core} (hBus : c.isBridge = true → s.bus.isSome) :
    ∃ complaint, widthComplaint s l c = .ok complaint ∧ (c.WidthAgrees s l → complaint = none) := by
  unfold widthComplaint Core.WidthAgrees
  dsimp only
  split
  · next hBridge =>
    obtain ⟨bus, hBus⟩ := Option.isSome_iff_exists.mp (hBus hBridge)
    have hKnown : s.knownBus = .ok bus := by rw [Subsystem.knownBus, hBus]
    rw [hKnown]
    refine ⟨_, (apply_ite Except.ok _ _ _).symm, fun ⟨bus', hBus', hAgrees⟩ => ?_⟩
    rw [hBus] at hBus'
    cases hBus'
    exact if_pos hAgrees
  · exact ⟨_, (apply_ite Except.ok _ _ _).symm, fun hAgrees => if_pos hAgrees⟩

theorem checkWidths_answers {P : Prop} {s : Subsystem} {cores : List Core}
    (hBus : ∀ c ∈ cores, c.isBridge = true → s.bus.isSome)
    (hP : P → ∀ c ∈ cores, c.WidthAgrees s l) : Answers (checkWidths s l cores).result P := by
  induction cores with
  | nil => exact ⟨true, rfl, fun _ => rfl⟩
  | cons c cs ih =>
    obtain ⟨hFirst, hRest⟩ := List.forall_mem_cons.mp hBus
    obtain ⟨complaint, hComplaint, hNone⟩ := widthComplaint_answers (l := l) hFirst
    obtain ⟨verdict, hVerdict, hPassed⟩ :=
      ih hRest fun hp c' hc' => hP hp c' (List.mem_cons_of_mem _ hc')
    rw [checkWidths, Run.result_bind, Run.result_ofExcept, hComplaint]
    cases complaint with
    | none => exact ⟨verdict, hVerdict, hPassed⟩
    | some text =>
      refine ⟨false, ?_, fun hp => ?_⟩
      · dsimp only
        rw [Run.result_lift_bind, Run.result_bind, hVerdict]
        rfl
      · cases hNone (hP hp c (List.mem_cons_self ..))

theorem checkCoreWidths_answers {P : Prop} (hLayout : b.subsystem.layout = some l)
    (hBus : ∀ c ∈ b.cores, c.isBridge = true → b.subsystem.bus.isSome)
    (hP : P → ∀ c ∈ b.cores, c.WidthAgrees b.subsystem l) : Answers b.checkCoreWidths.result P := by
  unfold checkCoreWidths
  rw [Run.result_lift_bind, Run.result_bind, Run.result_ofExcept, knownLayout_eq_ok.mpr hLayout]
  exact checkWidths_answers hBus hP

theorem checkUnusedInterfaces_answers {P : Prop} (hLayout : b.subsystem.layout = some l)
    (hP : P → ∀ i, b.subsystem.coreCount ≤ i → i < interfaceCount → l.widthAt i = 0) :
    Answers b.checkUnusedInterfaces.result P := by
  unfold checkUnusedInterfaces
  dsimp only
  split
  · exact ⟨true, rfl, fun _ => rfl⟩
  · rw [Run.result_lift_bind, Run.result_bind, Run.result_ofExcept, knownLayout_eq_ok.mpr hLayout]
    refine Answers.lift fun hp => complainEach_value_iff.mpr fun i hi => if_pos ?_
    obtain ⟨k, hk⟩ := List.getElem?_of_mem hi
    rw [List.getElem?_drop, List.getElem?_eq_some_iff] at hk
    obtain ⟨hLt, hk⟩ := hk
    rw [List.getElem_range] at hk
    rw [List.length_range] at hLt
    exact hP hp i (by omega) (by omega)

theorem checkProbesSum_answers {P : Prop} (hLayout : b.subsystem.layout = some l)
    (hP : P →
      (b.subsystem.interfaces.map Interface.probeWidth).sum + b.bridgeProbes = b.subsystem.probesSum ∧
        l.coreWidth.sum + b.bridgeProbes = b.subsystem.probesSum) :
    Answers b.checkProbesSum.result P := by
  unfold checkProbesSum
  rw [Run.result_lift_bind]
  dsimp only
  rw [foldr_add_eq_sum]
  split
  · next hDeclared => exact ⟨false, rfl, fun hp => absurd (hP hp).1 hDeclared⟩
  · rw [Run.result_bind, Run.result_ofExcept, knownLayout_eq_ok.mpr hLayout]
    dsimp only
    rw [foldr_add_eq_sum]
    split
    · next hMapped => exact ⟨false, rfl, fun hp => absurd (hP hp).2 hMapped⟩
    · exact ⟨true, rfl, fun _ => rfl⟩

/-! ## Addresses -/

theorem addressCores_of_interfaces {s : Subsystem} {cores : List Core}
    (h : ∀ c ∈ cores, (s.interfaces[c.index]?).isSome) : (addressCores s cores).2.2 = .ok () := by
  induction cores with
  | nil => rfl
  | cons c cs ih =>
    obtain ⟨hFirst, hRest⟩ := List.forall_mem_cons.mp h
    obtain ⟨itf, hItf⟩ := Option.isSome_iff_exists.mp hFirst
    rw [addressCores, addressCore, Subsystem.interface_eq_ok.mpr hItf]
    exact ih hRest

theorem checkBaseAddresses_answers {P : Prop}
    (hItf : ∀ c ∈ b.cores, (b.subsystem.interfaces[c.index]?).isSome)
    (hP : P → (b.cores.map fun c => b.subsystem.address c.index).Nodup) :
    Answers b.checkBaseAddresses.result P := by
  have hResult := addressCores_of_interfaces hItf
  obtain ⟨-, -, hAddressed⟩ := addressCores_ok hResult
  unfold checkBaseAddresses
  dsimp only
  rw [hResult, hAddressed]
  refine ⟨_, rfl, fun hp => postAddresses_value.mpr ⟨?_, fun _ _ => List.not_mem_nil⟩⟩
  rw [List.map_map]
  exact hP hp

/-! ## All checks -/

theorem index_lt (hCount : b.subsystem.coreCount = b.cores.length)
    (hIndex : ∀ (k : Nat) c, b.cores[k]? = some c → c.index = k) {c : Core} (hc : c ∈ b.cores) :
    c.index < b.subsystem.coreCount := by
  obtain ⟨k, hk⟩ := List.getElem?_of_mem hc
  rw [hIndex k c hk, hCount]
  exact (List.getElem?_eq_some_iff.mp hk).1

theorem runChecks_reading_answers {P : Prop} {run : Bench → Run Bool} {rest : List (Bench → Step)}
    (h : Answers (run b).result P)
    (hRest : (run b).result = .ok true → Answers (runChecks rest b).result P) :
    Answers (runChecks ((fun b => .reading b (run b)) :: rest) b).result P :=
  Answers.andThen (s := .reading b (run b)) h hRest

/-- **The cross-check ends with a verdict, which is positive if the bench agrees in all points.** -/
theorem crossCheck_answers {instantiators : List String} (h : b.subsystem.Shaped)
    (hNone : b.subsystem.layout = none) (hSome : b.cores ≠ []) :
    Answers (b.crossCheck instantiators).result (∃ l, b.Agreement instantiators l) := by
  have hRun : (b.crossCheck instantiators).result = (runChecks (checks instantiators) b).result := by
    unfold crossCheck
    dsimp only
    rw [if_neg (by simpa using hSome)]
  rw [hRun, checks]
  refine runChecks_reading_answers (Answers.lift fun ⟨_, hAgree⟩ => ?_) fun _ => ?_
  · exact checkInstantiatorCount_value.mpr hAgree.places
  refine runChecks_reading_answers (Answers.lift fun ⟨_, hAgree⟩ => ?_) fun hCount => ?_
  · exact checkCoreCount_value.mpr hAgree.coreCount
  refine runChecks_reading_answers (Answers.lift fun ⟨_, hAgree⟩ => ?_) fun hIndex => ?_
  · exact checkIndexSequence_value.mpr hAgree.index
  refine runChecks_reading_answers (Answers.lift fun ⟨_, hAgree⟩ => ?_) fun _ => ?_
  · exact checkInstantiatorName_value.mpr hAgree.holder
  refine runChecks_reading_answers (Answers.lift fun ⟨_, hAgree⟩ => ?_) fun _ => ?_
  · exact checkIdentity_value.mpr hAgree.identity
  refine runChecks_reading_answers (Answers.lift fun ⟨_, hAgree⟩ => ?_) fun _ => ?_
  · exact checkBusPorts_value_of hAgree.busPorts
  -- from here on every core has an interface
  have hCount := checkCoreCount_value.mp (Except.ok.inj hCount)
  have hIndex := checkIndexSequence_value.mp (Except.ok.inj hIndex)
  have hLt : ∀ c ∈ b.cores, c.index < interfaceCount := fun c hc =>
    lt_of_lt_of_le (index_lt hCount hIndex hc) h.coreCount_le
  refine Answers.andThen (s := b.checkLayout) ?_ fun hLayout => ?_
  · exact checkLayout_answers h hNone hLt fun ⟨l, hAgree⟩ => ⟨l, hAgree.layout⟩
  -- and there is only one layout that the bench can agree with
  obtain ⟨l, hFound, -, -, hBench⟩ := checkLayout_passed hLayout
  rw [hBench]
  refine Answers.imp (Q := b.Agreement instantiators l) ?_ fun ⟨l', hAgree⟩ => ?_
  rotate_left
  · have hSame := hAgree.layout
    rw [hFound] at hSame
    cases hSame
    exact hAgree
  refine runChecks_reading_answers ?_ fun _ => ?_
  · refine checkCoreWidths_answers (l := l) rfl (List.forall_mem_map.mpr fun c _ hBridge => ?_)
      fun hAgree => List.forall_mem_map.mpr hAgree.widths
    exact h.bus_of_bridge hBridge
  refine runChecks_reading_answers ?_ fun _ => ?_
  · exact checkUnusedInterfaces_answers (l := l) rfl fun hAgree => hAgree.unused
  refine runChecks_reading_answers ?_ fun _ => ?_
  · refine checkProbesSum_answers (l := l) rfl fun hAgree => ?_
    rw [bridgeProbes_placed]
    exact ⟨hAgree.declaredSum, hAgree.mappedSum⟩
  refine Answers.andThen ?_ fun _ => ⟨true, rfl, fun _ => rfl⟩
  refine checkBaseAddresses_answers (List.forall_mem_map.mpr fun c hc => ?_) fun hAgree => ?_
  · rw [isSome_getElem?]
    exact h.interfaces ▸ hLt c hc
  · rw [List.map_map]
    exact hAgree.addresses

end Bench

-- ---------------------------------------------------------------------------
-- Consistent numbers
-- ---------------------------------------------------------------------------

/-- The subsystem, the cores and the names of the places where they stand say the same, where `lists`
has the probe numbers of the native interfaces. A core behind those of the lists is the bridge. -/
structure Bench.Consistent (b : Bench) (instantiators : List String) (lists : List (List Nat)) :
    Prop where
  places    : instantiators.length = b.cores.length
  coreCount : b.subsystem.coreCount = b.cores.length
  index     : ∀ (k : Nat) c, b.cores[k]? = some c → c.index = k
  holder    : ∀ name ∈ instantiators, name = b.subsystem.name
  identity  : ∀ c ∈ b.cores,
                c.type = b.subsystem.type ∧ c.version = b.subsystem.version ∧ c.id = b.subsystem.id
  busPorts  : ∃ addrWidth dataWidth, ∀ c ∈ b.cores, c.addrWidth = addrWidth ∧ c.dataWidth = dataWidth
  assigns   : b.subsystem.Assigns lists
  native    : ∀ (k : Nat) c ps, b.cores[k]? = some c → lists[k]? = some ps →
                c.probeCount = (ps.map fun p => b.subsystem.probeWidth (p - 1)).sum
  bridge    : ∀ c, b.cores[lists.length]? = some c →
                ∃ bus, b.subsystem.bus = some bus ∧ c.probeCount = b.subsystem.busCount * bus.width
  unmapped  : ∀ p, 1 ≤ p → p ≤ interfaceCount → p ∉ lists.flatten →
                b.subsystem.probeWidth (p - 1) = 0
  sum       : (b.cores.map Core.probeCount).sum = b.subsystem.probesSum
  addresses : ((List.range b.subsystem.coreCount).map b.subsystem.address).Nodup

namespace Layout.Describes

variable {s : Subsystem} {lists : List (List Nat)} {l : Layout}

theorem widthAt_of_list (h : l.Describes s lists) {k : Nat} {ps : List Nat} (hk : lists[k]? = some ps) :
    l.widthAt k = (ps.map fun p => s.probeWidth (p - 1)).sum := by
  have hLt := (List.getElem?_eq_some_iff.mp hk).1
  rw [widthAt, h.coreWidth, h.order, List.getElem?_map, List.getElem?_append_left (by simpa using hLt),
    List.getElem?_map, hk, Option.map_some, Option.map_some, Option.getD_some, Subsystem.span,
    List.map_map]
  rfl

theorem widthAt_eq_zero (h : l.Describes s lists) {k : Nat} (hk : lists.length ≤ k) :
    l.widthAt k = 0 := by
  rw [widthAt, h.coreWidth, h.order, List.getElem?_map, List.getElem?_append_right (by simpa using hk),
    List.getElem?_replicate]
  split <;> simp

theorem flatten_order (h : l.Describes s lists) : l.order.flatten = lists.flatten.map (· - 1) := by
  rw [h.order, List.flatten_append, List.map_flatten]
  simp

end Layout.Describes

namespace Subsystem

variable {s : Subsystem} {lists : List (List Nat)} {l : Layout} {c : Core}

/-- There is a core for every list, and at most one besides. -/
theorem Assigns.length_bounds (h : s.Assigns lists) (hShaped : s.Shaped) :
    lists.length ≤ s.coreCount ∧ s.coreCount ≤ lists.length + 1 := by
  have hLength := h.length_eq
  have hShape := hShaped.shape
  unfold nativeCount at hLength
  cases hMode : s.mode with
  | native =>
    rw [hMode] at hLength
    dsimp only at hLength
    omega
  | bridge =>
    rw [hMode] at hLength
    simp only [shapeOk, hMode, Bool.and_eq_true, beq_iff_eq] at hShape
    dsimp only at hLength
    omega
  | nativeAndBridge =>
    rw [hMode] at hLength
    dsimp only at hLength
    omega

/-- What the layout asks of a core's number of probes, in terms of the lists. -/
theorem widthAgrees_iff (hShaped : s.Shaped) (h : s.Assigns lists) (hl : l.Describes s lists)
    (hc : c.index < s.coreCount) :
    (c.place s l).WidthAgrees s l ↔
      (∀ ps, lists[c.index]? = some ps →
        c.probeCount = (ps.map fun p => s.probeWidth (p - 1)).sum) ∧
      (c.index = lists.length → ∃ bus, s.bus = some bus ∧ c.probeCount = s.busCount * bus.width) := by
  obtain ⟨-, hLast⟩ := h.length_bounds hShaped
  have hNative := hShaped.native_iff hc
  have hLength := h.length_eq
  unfold Core.WidthAgrees
  show (if (s.bridgeIndex? == some (c.index : Int)) = true then _ else _) ↔ _
  cases hBridge : s.bridgeIndex? == some (c.index : Int) with
  | true =>
    rw [hBridge] at hNative
    have hIndex : c.index = lists.length := by
      by_contra hne
      have := hNative.mpr (by omega)
      cases this
    have hNone : lists[c.index]? = none := List.getElem?_eq_none_iff.mpr hIndex.ge
    have hZero : l.widthAt c.index = 0 := hl.widthAt_eq_zero hIndex.ge
    rw [if_pos rfl]
    constructor
    · rintro ⟨bus, hBus, hCount, -⟩
      refine ⟨fun ps hps => ?_, fun _ => ⟨bus, hBus, hCount⟩⟩
      rw [hNone] at hps
      cases hps
    · rintro ⟨-, hBus⟩
      obtain ⟨bus, hBus, hCount⟩ := hBus hIndex
      exact ⟨bus, hBus, hCount, hZero⟩
  | false =>
    have hIndex : c.index < lists.length := by
      have := hNative.mp hBridge
      omega
    have hList := List.getElem?_eq_getElem hIndex
    have hWidth : l.widthAt c.index = (lists[c.index].map fun p => s.probeWidth (p - 1)).sum :=
      hl.widthAt_of_list hList
    rw [if_neg (by decide)]
    constructor
    · intro hCount
      refine ⟨fun ps hps => ?_, fun hEq => absurd hEq hIndex.ne⟩
      rw [hList] at hps
      cases hps
      exact hCount.trans hWidth
    · rintro ⟨hCount, -⟩
      exact (hCount _ hList).trans hWidth.symm

end Subsystem

namespace Bench

variable {b : Bench} {instantiators : List String} {lists : List (List Nat)} {l : Layout}

/-- Cores that are numbered from zero on have the addresses of the first interfaces. -/
theorem addresses_eq (hCount : b.subsystem.coreCount = b.cores.length)
    (hIndex : ∀ (k : Nat) c, b.cores[k]? = some c → c.index = k) :
    (b.cores.map fun c => b.subsystem.address c.index) =
      (List.range b.subsystem.coreCount).map b.subsystem.address := by
  refine List.ext_getElem (by simp [hCount]) fun k hk _ => ?_
  rw [List.length_map] at hk
  rw [List.getElem_map, List.getElem_map, List.getElem_range,
    hIndex k _ (List.getElem?_eq_getElem hk)]

/-- The sum over the cores is the sum over the interfaces with the bridge's probes. -/
theorem sum_settled (h : b.subsystem.Shaped) (hFits : l.Fits b.subsystem)
    (hCount : b.subsystem.coreCount = b.cores.length)
    (hIndex : ∀ (k : Nat) c, b.cores[k]? = some c → c.index = k)
    (hWidths : ∀ c ∈ b.cores, (c.place b.subsystem l).WidthAgrees b.subsystem l) :
    (b.cores.map Core.probeCount).sum = l.coreWidth.sum + (b.settled l).bridgeProbes := by
  have hSeats : b.subsystem.Seats l (b.settled l).cores := by
    refine ⟨?_, fun k c' hk => ?_, ?_, ?_⟩
    · rw [settled, List.length_map, hCount]
    · rw [settled, List.getElem?_map] at hk
      obtain ⟨c, hc, rfl⟩ := Option.map_eq_some_iff.mp hk
      exact hIndex k c hc
    · exact List.forall_mem_map.mpr fun c _ => rfl
    · exact List.forall_mem_map.mpr hWidths
  have hSum := hSeats.sum_probeCount h hFits
  rw [settled, List.map_map] at hSum
  exact hSum

/-- A bench that agrees with its layout is consistent for the lists of the layout. -/
theorem Agreement.consistent (hAgree : b.Agreement instantiators l) (h : b.subsystem.Shaped)
    (hAssigns : b.subsystem.Assigns lists) (hl : l.Describes b.subsystem lists) :
    b.Consistent instantiators lists := by
  have hFits := layout_fits hAgree.layout
  have hSum := sum_settled h hFits hAgree.coreCount hAgree.index hAgree.widths
  have hWidth : ∀ (k : Nat) c, b.cores[k]? = some c → _ := fun k c hk =>
    (Subsystem.widthAgrees_iff h hAssigns hl
      (index_lt hAgree.coreCount hAgree.index (List.mem_of_getElem? hk))).mp
        (hAgree.widths c (List.mem_of_getElem? hk))
  refine
    { places := hAgree.places.symm, coreCount := hAgree.coreCount, index := hAgree.index
      holder := hAgree.holder, identity := hAgree.identity, busPorts := ?busPorts
      assigns := hAssigns, native := ?native, bridge := ?bridge, unmapped := ?unmapped
      sum := hSum.trans hAgree.mappedSum, addresses := ?addresses }
  case busPorts =>
    obtain ⟨c, hc⟩ := List.exists_mem_of_ne_nil _ hAgree.someCore
    exact ⟨c.addrWidth, c.dataWidth, fun c' hc' => hAgree.busPorts c' hc' c hc⟩
  case native =>
    intro k c ps hk hps
    exact (hWidth k c hk).1 ps (hAgree.index k c hk ▸ hps)
  case bridge =>
    intro c hk
    exact (hWidth _ c hk).2 (hAgree.index _ c hk)
  case unmapped =>
    intro p hPos hLe hOther
    -- the declared and the mapped widths have the same sum
    have hDeclared := hAgree.declaredSum
    have hMapped := hAgree.mappedSum
    rw [h.sum_widths] at hDeclared
    rw [hFits.sound.sum_coreWidth] at hMapped
    refine hFits.sound.span_eq_iff.mp (by omega) (p - 1) (by omega) ?_
    rw [hl.flatten_order]
    intro hMem
    obtain ⟨q, hq, hqp⟩ := List.mem_map.mp hMem
    have hqPos := hAssigns.pos hq
    have : q = p := by omega
    exact hOther (this ▸ hq)
  case addresses =>
    rw [← addresses_eq hAgree.coreCount hAgree.index]
    exact hAgree.addresses

/-- A bench that is consistent for some lists agrees with the layout of these lists. -/
theorem Consistent.agreement (hCons : b.Consistent instantiators lists) (h : b.subsystem.Shaped)
    (hNone : b.subsystem.layout = none) (hSome : b.cores ≠ []) (hLayout : b.layout.result = .ok (some l))
    (hl : l.Describes b.subsystem lists) : b.Agreement instantiators l := by
  have hFits := layout_fits hLayout
  have hLt : ∀ c ∈ b.cores, c.index < b.subsystem.coreCount := fun c hc =>
    index_lt hCons.coreCount hCons.index hc
  have hWidths : ∀ c ∈ b.cores, (c.place b.subsystem l).WidthAgrees b.subsystem l := by
    intro c hc
    obtain ⟨k, hk⟩ := List.getElem?_of_mem hc
    have hIndex := hCons.index k c hk
    refine (Subsystem.widthAgrees_iff h hCons.assigns hl (hLt c hc)).mpr ⟨fun ps hps => ?_, fun hEq => ?_⟩
    · exact hCons.native k c ps hk (hIndex ▸ hps)
    · exact hCons.bridge c (by rw [← hEq, hIndex]; exact hk)
  have hSum := sum_settled h hFits hCons.coreCount hCons.index hWidths
  have hMapped : l.coreWidth.sum + (b.settled l).bridgeProbes = b.subsystem.probesSum :=
    hSum.symm.trans hCons.sum
  obtain ⟨hListed, -⟩ := hCons.assigns.length_bounds h
  refine
    { someCore := hSome, places := hCons.places.symm, coreCount := hCons.coreCount
      index := hCons.index, holder := hCons.holder, identity := hCons.identity, busPorts := ?busPorts
      layout := hLayout, noLayout := hNone, owned := ?owned, widths := hWidths, unused := ?unused
      declaredSum := ?declaredSum, mappedSum := hMapped, addressed := ?addressed
      addresses := ?addresses }
  case busPorts =>
    obtain ⟨addrWidth, dataWidth, hPorts⟩ := hCons.busPorts
    intro c hc c' hc'
    obtain ⟨hAddr, hData⟩ := hPorts c hc
    obtain ⟨hAddr', hData'⟩ := hPorts c' hc'
    exact ⟨hAddr.trans hAddr'.symm, hData.trans hData'.symm⟩
  case owned =>
    intro c hc
    rw [isSome_getElem?, hFits.sound.order_length]
    exact lt_of_lt_of_le (hLt c hc) h.coreCount_le
  case unused =>
    intro i hUsed _
    exact hl.widthAt_eq_zero (hListed.trans hUsed)
  case declaredSum =>
    have hSpan : b.subsystem.span (List.range interfaceCount) = b.subsystem.span l.order.flatten := by
      refine hFits.sound.span_eq_iff.mpr fun p hp hOther => ?_
      refine hCons.unmapped (p + 1) (by omega) hp fun hMem => hOther ?_
      rw [hl.flatten_order]
      exact List.mem_map.mpr ⟨p + 1, hMem, rfl⟩
    rw [h.sum_widths, hSpan, ← hFits.sound.sum_coreWidth]
    exact hMapped
  case addressed =>
    intro c hc
    rw [isSome_getElem?, h.interfaces]
    exact lt_of_lt_of_le (hLt c hc) h.coreCount_le
  case addresses =>
    rw [addresses_eq hCons.coreCount hCons.index]
    exact hCons.addresses

/-- **The cross-check accepts exactly the consistent benches.** On a subsystem that was built and some
cores it always ends with a verdict. -/
theorem crossCheck_accepts {name ipType : String} {t : ParamTable} {built : Logged (Option Subsystem)}
    (hBuild : Subsystem.build name t ipType = .ok built) (hBuilt : built.value = some b.subsystem)
    (hSome : b.cores ≠ []) :
    (∃ verdict, (b.crossCheck instantiators).result = .ok verdict) ∧
      ((b.crossCheck instantiators).result = .ok true ↔ ∃ lists, b.Consistent instantiators lists) := by
  obtain ⟨hShaped, hNone⟩ := Subsystem.shaped_of_build hBuild hBuilt
  obtain ⟨-, hFound, hDescribes⟩ := layout_assigns hShaped
  obtain ⟨verdict, hVerdict, hPassed⟩ :=
    crossCheck_answers hShaped hNone hSome
  refine ⟨⟨verdict, hVerdict⟩, fun h => ?_, fun ⟨lists, hCons⟩ => ?_⟩
  · obtain ⟨l, hAgree, -⟩ := crossCheck_passed h
    obtain ⟨lists, hAssigns⟩ := hFound.mp ⟨l, hAgree.layout⟩
    exact ⟨lists, hAgree.consistent hShaped hAssigns (hDescribes l lists hAgree.layout hAssigns)⟩
  · obtain ⟨l, hl⟩ := hFound.mpr ⟨lists, hCons.assigns⟩
    have hAgree := hCons.agreement hShaped hNone hSome hl (hDescribes l lists hl hCons.assigns)
    rw [hVerdict, hPassed ⟨l, hAgree⟩]

end Bench

/-! ## A bench that is accepted -/

/-- Two native interfaces, the first of which lists two probes, and a bridge. -/
def pairedTable : ParamTable :=
  { slots := Slot.subsystemSlots
    values :=
      [("IP_TYPE", .text "OCLA"), ("IP_VERSION", .word32 1), ("IP_ID", .word32 4660),
        ("Mode", .text "NATIVE_AXI"), ("Axi_Type", .text "AXILite"), ("No_AXI_Bus", .word32 1),
        ("Cores", .word32 3), ("No_Probes", .word32 3), ("Probes_Sum", .word32 159)] ++
      pairedSubsystem.interfaces.zipIdx.flatMap fun (itf, i) =>
        [(Slot.widthKey i, .word32 itf.probeWidth), (Slot.addressKey i, .word32 itf.baseAddress),
          (Slot.packedKey i, .word64 itf.packed)] }

/-- The subsystem of the table and its three cores. -/
def pairedBench : Bench :=
  { subsystem := { pairedSubsystem with params := pairedTable }
    cores := [core 0 6, core 1 1, core 2 152] }
where
  core (index probes : Nat) : Core :=
    { name := "ocla", params := ⟨[], []⟩, type := "OCLA", version := 1, id := 4660, index
      memDepth := 64, probeCount := probes, addrWidth := 32, dataWidth := 32 }

theorem pairedBench_built : ∃ built,
    Subsystem.build "ocla_debug_subsystem" pairedTable "OCLA" = .ok built ∧
      built.value = some pairedBench.subsystem := by
  have h : (Subsystem.build "ocla_debug_subsystem" pairedTable "OCLA").toOption.map Logged.value =
      some (some pairedBench.subsystem) := by
    decide +kernel
  cases hBuild : Subsystem.build "ocla_debug_subsystem" pairedTable "OCLA" with
  | error fault =>
    rw [hBuild] at h
    cases h
  | ok built =>
    rw [hBuild] at h
    exact ⟨built, rfl, Option.some.inj h⟩

theorem pairedBench_consistent :
    pairedBench.Consistent (List.replicate 3 "ocla_debug_subsystem") [[1, 3], [2]] := by
  refine ⟨rfl, rfl, fun k c hk => ?_, by decide, by decide, ⟨32, 32, by decide⟩, ?_,
    fun k c ps hk hps => ?_, fun c hk => ?_, ?_, by decide, by decide⟩
  · match k with
    | 0 => cases hk; rfl
    | 1 => cases hk; rfl
    | 2 => cases hk; rfl
    | k + 3 => simp [pairedBench] at hk
  · obtain ⟨hCount, hNonempty, hPerm, hSmall, hWide, hWord, hRest⟩ := pairedSubsystem_packs_lists
    exact ⟨hCount, hNonempty, hPerm, hSmall, hWide, hWord, hRest⟩
  · match k with
    | 0 => cases hk; cases hps; decide
    | 1 => cases hk; cases hps; decide
    | k + 2 => simp at hps
  · cases hk
    exact ⟨.lite, rfl, by decide⟩
  · have hZero : ∀ p < interfaceCount + 1, 1 ≤ p → p ∉ [[1, 3], [2]].flatten →
        pairedBench.subsystem.probeWidth (p - 1) = 0 := by
      decide
    exact fun p hPos hLe => hZero p (Nat.lt_succ_of_le hLe) hPos

/-- The subsystem is built from its table, and its cores are accepted in three places inside it. -/
theorem pairedBench_accepted :
    (∃ built, Subsystem.build "ocla_debug_subsystem" pairedTable "OCLA" = .ok built ∧
      built.value = some pairedBench.subsystem) ∧
    (pairedBench.crossCheck (List.replicate 3 "ocla_debug_subsystem")).result = .ok true := by
  obtain ⟨built, hBuild, hBuilt⟩ := pairedBench_built
  exact ⟨⟨built, hBuild, hBuilt⟩,
    (Bench.crossCheck_accepts hBuild hBuilt (by decide)).2.mpr ⟨_, pairedBench_consistent⟩⟩

end ProbeAtlas
