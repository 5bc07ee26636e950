import Mathlib.Data.List.Forall2
import ProbeAtlas.Proofs.CutAgreement

/-!
# ProbeAtlas — what is filled in once

Cross-checking and wiring change the bench they work on, and neither undoes anything when it fails. The
seventh check stores the layout and gives the cores their places, the last one stores addresses, and
wiring attaches signals core by core. Still every one of these is filled in at most once, whatever calls
are made and however they end: a cross-check that finds a layout never gets past the seventh check, and
wiring that finds a signal does not begin.

`Bench.Keeps` says what two states of a bench share if one is later than the other. It is shown for one
call of each kind and carries over to any sequence of calls, because it can be composed.

Main result: `Bench.calls_write_once`.
-/

namespace ProbeAtlas

-- ---------------------------------------------------------------------------
-- Calls
-- ---------------------------------------------------------------------------

/-- A call of one of the two stages that change a bench. -/
inductive Call where
  | check (instantiators : List String)
  | wire (top : Option Module) (instantiator : String) (rules : Rules)

namespace Bench

def call (b : Bench) : Call → Step
  | .check instantiators => b.crossCheck instantiators
  | .wire top instantiator rules => b.wire top instantiator rules

/-- The bench after some calls one after another, however each of them ends. -/
def afterCalls (b : Bench) (calls : List Call) : Bench :=
  calls.foldl (fun b call => (b.call call).bench) b

end Bench

-- ---------------------------------------------------------------------------
-- What is kept
-- ---------------------------------------------------------------------------

/-- What a core keeps; `placed` says whether the subsystem had its layout already. -/
structure Core.Keeps (placed : Bool) (c c' : Core) : Prop where
  others : c' = { c with
             isBridge := c'.isBridge, probeOrder := c'.probeOrder, baseAddress := c'.baseAddress
             probes := c'.probes }
  place  : placed = true → c'.isBridge = c.isBridge ∧ c'.probeOrder = c.probeOrder ∧
             c'.baseAddress = c.baseAddress
  signal : c.probes ≠ [] → c'.probes = c.probes

/-- What a bench keeps: the layout, the places and the signals that it has, and all else in any case. -/
structure Bench.Keeps (b b' : Bench) : Prop where
  others : b'.subsystem = { b.subsystem with layout := b'.subsystem.layout }
  layout : ∀ l, b.subsystem.layout = some l → b'.subsystem.layout = some l
  cores  : List.Forall₂ (Core.Keeps b.subsystem.layout.isSome) b.cores b'.cores

theorem Core.Keeps.refl (placed : Bool) (c : Core) : c.Keeps placed c :=
  ⟨rfl, fun _ => ⟨rfl, rfl, rfl⟩, fun _ => rfl⟩

/-- A layout that is there stays, so places that are kept first are kept afterwards as well. -/
theorem Core.Keeps.trans {placed placed' : Bool} {c c' c'' : Core} (h : c.Keeps placed c')
    (h' : c'.Keeps placed' c'') (hPlaced : placed = true → placed' = true) : c.Keeps placed c'' := by
  refine ⟨?_, fun hp => ?_, fun hs => ?_⟩
  · have hFirst := h.others
    have hSecond := h'.others
    rw [hFirst] at hSecond
    exact hSecond
  · obtain ⟨hBridge, hOrder, hAddress⟩ := h.place hp
    obtain ⟨hBridge', hOrder', hAddress'⟩ := h'.place (hPlaced hp)
    exact ⟨hBridge'.trans hBridge, hOrder'.trans hOrder, hAddress'.trans hAddress⟩
  · have hSame := h.signal hs
    exact (h'.signal (by rw [hSame]; exact hs)).trans hSame

namespace Bench

variable {b b' b'' : Bench}

theorem Keeps.refl (b : Bench) : b.Keeps b :=
  ⟨rfl, fun _ h => h, List.forall₂_same.mpr fun c _ => Core.Keeps.refl _ c⟩

theorem Keeps.trans (h : b.Keeps b') (h' : b'.Keeps b'') : b.Keeps b'' := by
  have hPlaced : b.subsystem.layout.isSome = true → b'.subsystem.layout.isSome = true := by
    intro hSome
    obtain ⟨l, hl⟩ := Option.isSome_iff_exists.mp hSome
    rw [h.layout l hl, Option.isSome_some]
  refine ⟨?_, fun l hl => h'.layout l (h.layout l hl), ?_⟩
  · have hFirst := h.others
    have hSecond := h'.others
    rw [hFirst] at hSecond
    exact hSecond
  · obtain ⟨hLength, hAt⟩ := List.forall₂_iff_get.mp h.cores
    obtain ⟨hLength', hAt'⟩ := List.forall₂_iff_get.mp h'.cores
    refine List.forall₂_iff_get.mpr ⟨hLength.trans hLength', fun i hi hi'' => ?_⟩
    have hi' : i < b'.cores.length := hLength ▸ hi
    exact (hAt i hi hi').trans (hAt' i hi' hi'') hPlaced

-- ---------------------------------------------------------------------------
-- Cross-checking
-- ---------------------------------------------------------------------------

/-- The second core is the first one, possibly in another place. -/
def Moved (c c' : Core) : Prop :=
  c' = { c with
    isBridge := c'.isBridge, probeOrder := c'.probeOrder, baseAddress := c'.baseAddress }

theorem forall₂_moved_trans {cs cs' cs'' : List Core} (h : List.Forall₂ Moved cs cs')
    (h' : List.Forall₂ Moved cs' cs'') : List.Forall₂ Moved cs cs'' := by
  obtain ⟨hLength, hAt⟩ := List.forall₂_iff_get.mp h
  obtain ⟨hLength', hAt'⟩ := List.forall₂_iff_get.mp h'
  refine List.forall₂_iff_get.mpr ⟨hLength.trans hLength', fun i hi hi'' => ?_⟩
  have hi' : i < cs'.length := hLength ▸ hi
  have hSecond := hAt' i hi' hi''
  unfold Moved at hSecond
  rw [hAt i hi hi'] at hSecond
  exact hSecond

theorem forall₂_moved_refl (cs : List Core) : List.Forall₂ Moved cs cs :=
  List.forall₂_same.mpr fun _ _ => rfl

/-- What every check does to the bench, all checks together do. -/
theorem runChecks_related {R : Bench → Bench → Prop} (hRefl : ∀ b, R b b)
    (hTrans : ∀ b b' b'', R b b' → R b' b'' → R b b'') {checks : List (Bench → Step)}
    (h : ∀ check ∈ checks, ∀ b, R b (check b).bench) (b : Bench) : R b (runChecks checks b).bench := by
  induction checks generalizing b with
  | nil => exact hRefl b
  | cons check rest ih =>
    have hFirst := h check (List.mem_cons_self ..) b
    have hRest := ih (fun c hc => h c (List.mem_cons_of_mem _ hc)) (check b).bench
    rw [runChecks, Step.andThen]
    split
    · exact hTrans _ _ _ hFirst hRest
    · exact hFirst

theorem runChecks_append (first second : List (Bench → Step)) (b : Bench) :
    (runChecks (first ++ second) b).bench = (runChecks first b).bench ∨
      (runChecks (first ++ second) b).bench =
        (runChecks second (runChecks first b).bench).bench := by
  induction first generalizing b with
  | nil => exact Or.inr rfl
  | cons check rest ih =>
    rw [List.cons_append, runChecks, runChecks, Step.andThen, Step.andThen]
    split
    · exact ih (check b).bench
    · exact Or.inl rfl

/-- Placing cores moves them, also if it ends at a core without an interface. -/
theorem placeCores_moved (s : Subsystem) (l : Layout) (cores : List Core) :
    List.Forall₂ Moved cores (placeCores s l cores).1 := by
  induction cores with
  | nil => exact .nil
  | cons c cs ih =>
    rw [placeCores]
    dsimp only
    split
    · exact .cons rfl (forall₂_moved_refl cs)
    · exact .cons rfl ih

theorem addressCores_moved (s : Subsystem) (cores : List Core) :
    List.Forall₂ Moved cores ((addressCores s cores).1 ++ (addressCores s cores).2.1) := by
  induction cores with
  | nil => exact .nil
  | cons c cs ih =>
    rw [addressCores]
    cases hFirst : addressCore s c with
    | error fault => exact forall₂_moved_refl (c :: cs)
    | ok c' =>
      obtain ⟨-, rfl⟩ := addressCore_eq_ok hFirst
      exact .cons rfl ih

/-- The seventh check leaves the bench alone, or stores a layout where there was none. -/
theorem checkLayout_bench (b : Bench) : b.checkLayout.bench = b ∨
    b.subsystem.layout = none ∧ ∃ l cores, List.Forall₂ Moved b.cores cores ∧
      b.checkLayout.bench = ⟨{ b.subsystem with layout := some l }, cores⟩ := by
  unfold checkLayout
  dsimp only
  split
  · exact Or.inl rfl
  · exact Or.inl rfl
  · next l _ =>
    by_cases hSome : b.subsystem.layout.isSome = true
    · rw [if_pos hSome]
      exact Or.inl rfl
    · rw [if_neg hSome]
      refine Or.inr ⟨by simpa using hSome, l, _, placeCores_moved _ l b.cores, rfl⟩

/-- The checks from the eighth on leave the subsystem alone. -/
theorem lateChecks_bench {checks : List (Bench → Step)}
    (h : ∀ check ∈ checks, (∃ run : Bench → Run Bool, check = fun b => .reading b (run b)) ∨
      check = checkBaseAddresses) (b : Bench) :
    (runChecks checks b).bench.subsystem = b.subsystem ∧
      List.Forall₂ Moved b.cores (runChecks checks b).bench.cores := by
  refine runChecks_related (R := fun b b' => b'.subsystem = b.subsystem ∧ List.Forall₂ Moved b.cores b'.cores)
    (fun b => ⟨rfl, forall₂_moved_refl _⟩) (fun b b' b'' hFirst hSecond => ?_) (fun check hCheck b => ?_) b
  · exact ⟨hSecond.1.trans hFirst.1, forall₂_moved_trans hFirst.2 hSecond.2⟩
  · rcases h check hCheck with ⟨run, rfl⟩ | rfl
    · exact ⟨rfl, forall₂_moved_refl _⟩
    · exact ⟨rfl, addressCores_moved b.subsystem b.cores⟩

/-- **A cross-check leaves the bench alone, or stores a layout where there was none.** In the second case
it moves the cores and does nothing else. -/
theorem crossCheck_bench (b : Bench) (instantiators : List String) :
    (b.crossCheck instantiators).bench = b ∨
      b.subsystem.layout = none ∧ ∃ l cores, List.Forall₂ Moved b.cores cores ∧
        (b.crossCheck instantiators).bench = ⟨{ b.subsystem with layout := some l }, cores⟩ := by
  have hChecks : checks instantiators =
      (checks instantiators).take 6 ++ checkLayout :: (checks instantiators).drop 7 := rfl
  have hEarly : ∀ b, (runChecks ((checks instantiators).take 6) b).bench = b := by
    refine runChecks_related (R := fun b b' => b' = b) (fun _ => rfl)
      (fun b b' b'' hFirst hSecond => hSecond.trans hFirst) ?_
    simp [checks, Step.reading]
  have hLate : ∀ check ∈ (checks instantiators).drop 7,
      (∃ run : Bench → Run Bool, check = fun b => .reading b (run b)) ∨ check = checkBaseAddresses := by
    simp only [checks, List.drop_succ_cons, List.drop_zero, List.forall_mem_cons]
    exact ⟨Or.inl ⟨_, rfl⟩, Or.inl ⟨_, rfl⟩, Or.inl ⟨_, rfl⟩, Or.inr trivial, by simp⟩
  have hBench : (b.crossCheck instantiators).bench = b ∨
      (b.crossCheck instantiators).bench = (runChecks (checks instantiators) b).bench := by
    unfold crossCheck
    dsimp only
    split
    · exact Or.inl rfl
    · exact Or.inr rfl
  rcases hBench with hSame | hRun
  · exact Or.inl hSame
  rw [hRun, hChecks]
  rcases runChecks_append ((checks instantiators).take 6)
    (checkLayout :: (checks instantiators).drop 7) b with hStop | hOn
  · rw [hStop, hEarly]
    exact Or.inl rfl
  rw [hOn, hEarly, runChecks, Step.andThen]
  split
  · -- the layout has been stored, and the late checks work on the bench with it
    next hPassed =>
    obtain ⟨l, -, hNone, -, hBench⟩ := checkLayout_passed hPassed
    obtain ⟨hSubsystem, hMoved⟩ := lateChecks_bench hLate b.checkLayout.bench
    have hPlaced : List.Forall₂ Moved b.cores b.checkLayout.bench.cores := by
      rw [hBench, List.forall₂_map_right_iff, List.forall₂_same]
      exact fun c _ => rfl
    refine Or.inr ⟨hNone, l, _, forall₂_moved_trans hPlaced hMoved, ?_⟩
    have hStored : (runChecks ((checks instantiators).drop 7) b.checkLayout.bench).bench.subsystem =
        { b.subsystem with layout := some l } := by rw [hSubsystem, hBench]
    rw [← hStored]
  · exact checkLayout_bench b

theorem crossCheck_keeps (b : Bench) (instantiators : List String) :
    b.Keeps (b.crossCheck instantiators).bench := by
  rcases crossCheck_bench b instantiators with hSame | ⟨hNone, l, cores, hMoved, hBench⟩
  · rw [hSame]
    exact Keeps.refl b
  · rw [hBench]
    refine ⟨rfl, fun l' hl' => ?_, ?_⟩
    · rw [hNone] at hl'
      cases hl'
    · rw [hNone]
      refine hMoved.imp fun c c' hMove => ?_
      unfold Moved at hMove
      refine ⟨?_, fun hPlaced => absurd hPlaced Bool.false_ne_true, fun _ => ?_⟩
      · rw [hMove]
      · rw [hMove]

-- ---------------------------------------------------------------------------
-- Wiring
-- ---------------------------------------------------------------------------

/-- The second core is the first one, possibly with another signal. -/
def Rewired (c c' : Core) : Prop :=
  c' = { c with probes := c'.probes }

theorem wireCores_rewired (site : Site) (cores : List Core) :
    List.Forall₂ Rewired cores (site.wireCores cores).cores := by
  induction cores with
  | nil => exact .nil
  | cons c cs ih =>
    rw [Site.wireCores]
    dsimp only
    split
    · exact List.forall₂_same.mpr fun _ _ => rfl
    · exact .cons rfl ih

/-- **Wiring leaves the cores alone, or attaches signals where no core had one.** -/
theorem wireAll_cores (s : Option Subsystem) (cores : List Core) (top : Option Module)
    (instantiator : String) (rules : Rules) :
    (wireAll s cores top instantiator rules).cores = cores ∨ (∀ c ∈ cores, c.probes = []) ∧
      List.Forall₂ Rewired cores (wireAll s cores top instantiator rules).cores := by
  unfold wireAll
  dsimp only
  split
  · exact Or.inl rfl
  · next hNone =>
    have hBare : ∀ c ∈ cores, c.probes = [] := by
      intro c hc
      have hEmpty := List.find?_eq_none.mp hNone c hc
      simpa using hEmpty
    split
    · exact Or.inl rfl
    · split
      · split
        · exact Or.inr ⟨hBare, wireCores_rewired _ cores⟩
        · exact Or.inr ⟨hBare, wireCores_rewired _ cores⟩
      · exact Or.inl rfl

theorem wire_keeps (b : Bench) (top : Option Module) (instantiator : String) (rules : Rules) :
    b.Keeps (b.wire top instantiator rules).bench := by
  refine ⟨rfl, fun _ hl => hl, ?_⟩
  show List.Forall₂ _ b.cores (wireAll (some b.subsystem) b.cores top instantiator rules).cores
  rcases wireAll_cores (some b.subsystem) b.cores top instantiator rules with hSame | ⟨hBare, hRewired⟩
  · rw [hSame]
    exact List.forall₂_same.mpr fun c _ => Core.Keeps.refl _ c
  · obtain ⟨hLength, hAt⟩ := List.forall₂_iff_get.mp hRewired
    refine List.forall₂_iff_get.mpr ⟨hLength, fun i hi hi' => ?_⟩
    have hChange := hAt i hi hi'
    have hEmpty := hBare _ (List.get_mem b.cores ⟨i, hi⟩)
    unfold Rewired at hChange
    refine ⟨?_, fun _ => ?_, fun hSome => absurd hEmpty hSome⟩
    · rw [hChange]
    · rw [hChange]
      exact ⟨rfl, rfl, rfl⟩

-- ---------------------------------------------------------------------------
-- Any calls
-- ---------------------------------------------------------------------------

theorem call_keeps (b : Bench) (call : Call) : b.Keeps (b.call call).bench := by
  cases call with
  | check instantiators => exact crossCheck_keeps b instantiators
  | wire top instantiator rules => exact wire_keeps b top instantiator rules

theorem afterCalls_keeps (b : Bench) (calls : List Call) : b.Keeps (b.afterCalls calls) := by
  induction calls generalizing b with
  | nil => exact Keeps.refl b
  | cons call rest ih => exact (call_keeps b call).trans (ih (b.call call).bench)

/-- **The bench is filled in once.** At any point in a sequence of calls, what the bench has by then is
kept by all later calls. A cross-check after which there is no layout leaves the bench as it was,
whether it returns or ends with a fault. -/
theorem calls_write_once (b : Bench) (earlier later : List Call) :
    (b.afterCalls earlier).Keeps (b.afterCalls (earlier ++ later)) ∧
      ∀ instantiators : List String,
        ((b.afterCalls earlier).crossCheck instantiators).bench.subsystem.layout = none →
        ((b.afterCalls earlier).crossCheck instantiators).bench = b.afterCalls earlier := by
  refine ⟨?_, fun instantiators hNone => ?_⟩
  · have hSplit : b.afterCalls (earlier ++ later) = (b.afterCalls earlier).afterCalls later :=
      List.foldl_append ..
    rw [hSplit]
    exact afterCalls_keeps _ later
  · rcases crossCheck_bench (b.afterCalls earlier) instantiators with hSame | ⟨-, l, cores, -, hBench⟩
    · exact hSame
    · rw [hBench] at hNone
      cases hNone

/-- A cross-check that finds a wrong place changes nothing; then one passes, and another one and a second
wiring end with faults. -/
theorem pairedBench_write_once :
    let places := List.replicate 3 "ocla_debug_subsystem"
    let wire := Call.wire (some pairedTop) "wrapper" {}
    let filled := pairedBench.afterCalls [.check ["other"], .check places, wire]
    (pairedBench.crossCheck ["other"]).bench = pairedBench ∧
      filled.subsystem.layout.isSome = true ∧ (∀ c ∈ filled.cores, c.probes ≠ []) ∧
      (filled.call (.check places)).result = .error (.layoutPresent "ocla_debug_subsystem") ∧
      (filled.call wire).result.isOk = false ∧
      filled.Keeps (pairedBench.afterCalls
        ([.check ["other"], .check places, wire] ++ [.check places, wire])) := by
  refine ⟨?_, by decide +kernel, by decide +kernel, by decide +kernel, by decide +kernel, ?_⟩
  · exact (calls_write_once pairedBench [] []).2 ["other"] (by decide +kernel)
  · exact (calls_write_once pairedBench _ _).1

end Bench

end ProbeAtlas
