import Mathlib.Data.List.Perm.Subperm
import Mathlib.Data.Nat.Digits.Defs
import Mathlib.Data.Nat.Digits.Lemmas
import ProbeAtlas.Proofs.Layout

/-!
# ProbeAtlas — packed words and probe lists

A native interface lists its probes in one word, four bits a probe. `Subsystem.Packs` says what the
words of a subsystem are meant to be: for each native interface a list of probe numbers, all lists
together an enumeration of the probes, packed as the digits of a number. Unpacking goes through the
words with two nested loops, a set of probes seen and running widths. The proofs see it as one loop
over jobs, pairs of an interface and a probe number: jobs can be done exactly if all of them name
usable probes, none of them twice (`Subsystem.Placeable`), and doing them appends the probes to their
interfaces (`Subsystem.order_give`).

Main results:

* `Subsystem.decodeLayout_packs` — unpacking succeeds on the words that pack some lists and on no others,
  as long as the bridge, if there is one, has an interface. The layout it finds is read off the lists.
* `Subsystem.decodeLayout_crowded` — where the bridge has no interface, unpacking refuses all words. That
  happens beside fifteen native interfaces (`crowdedSubsystem_refused`).
-/

namespace ProbeAtlas

-- ---------------------------------------------------------------------------
-- Digits
-- ---------------------------------------------------------------------------

theorem nibbles_go_eq_digits {fuel n : Nat} (h : n ≤ fuel) : nibbles.go fuel n = Nat.digits 16 n := by
  induction fuel generalizing n with
  | zero =>
    rw [Nat.le_zero.mp h, nibbles.go, Nat.digits_zero]
  | succ fuel ih =>
    rw [nibbles.go]
    split
    · next hZero => rw [hZero, Nat.digits_zero]
    · next hPos =>
      rw [Nat.digits_def' (by decide) (Nat.pos_of_ne_zero hPos), ih (by omega)]

/-- The digits of a word are its digits in base sixteen. -/
theorem nibbles_eq_digits (n : Nat) : nibbles n = Nat.digits 16 n :=
  nibbles_go_eq_digits (Nat.le_refl n)

/-- A list without zeros is what its number unpacks to. -/
theorem nibbles_ofDigits {ps : List Nat} (hPos : ∀ p ∈ ps, 1 ≤ p) (hSmall : ∀ p ∈ ps, p < 16) :
    nibbles (Nat.ofDigits 16 ps) = ps := by
  rw [nibbles_eq_digits]
  refine Nat.digits_ofDigits 16 (by decide) ps hSmall fun hSome => ?_
  have := hPos _ (List.getLast_mem hSome)
  omega

-- ---------------------------------------------------------------------------
-- Jobs
-- ---------------------------------------------------------------------------

namespace Subsystem

/-- The packed word of the interface at a position, zero where there is none. -/
def packedAt (s : Subsystem) (i : Nat) : Nat :=
  ((s.interfaces[i]?).map Interface.packed).getD 0

/-- One after another, gives each probe to the interface it is paired with. Probes are given by their
numbers, from one on. -/
def give (s : Subsystem) (l : Layout) (jobs : List (Nat × Nat)) : Layout :=
  jobs.foldl (fun l job => l.assign job.1 (job.2 - 1) (s.probeWidth (job.2 - 1))) l

/-- The jobs that the words of some interfaces stand for. -/
def jobs (s : Subsystem) (is : List Nat) : List (Nat × Nat) :=
  is.flatMap fun i => (nibbles (s.packedAt i)).map (i, ·)

/-- The jobs name probes that exist, have a width, are named once and have no owner yet. -/
structure Placeable (s : Subsystem) (l : Layout) (jobs : List (Nat × Nat)) : Prop where
  inRange  : ∀ job ∈ jobs, 1 ≤ job.2 ∧ job.2 ≤ s.lastProbe
  wide     : ∀ job ∈ jobs, 0 < s.probeWidth (job.2 - 1)
  distinct : (jobs.map Prod.snd).Nodup
  free     : ∀ job ∈ jobs, l.owner? (job.2 - 1) = none

variable {s : Subsystem} {l l' : Layout}

theorem lastProbe_le : s.lastProbe ≤ interfaceCount :=
  Nat.min_le_left _ _

theorem give_append (front back : List (Nat × Nat)) :
    s.give l (front ++ back) = s.give (s.give l front) back :=
  List.foldl_append

theorem placeable_nil : s.Placeable l [] :=
  ⟨by simp, by simp, by simp, by simp⟩

/-- **The first job can be done, and the others after it.** That a probe is named twice shows when its
owner is looked up the second time. -/
theorem placeable_cons (hLength : l.owner.length = interfaceCount) {job : Nat × Nat}
    {rest : List (Nat × Nat)} :
    s.Placeable l (job :: rest) ↔
      (1 ≤ job.2 ∧ job.2 ≤ s.lastProbe) ∧ 0 < s.probeWidth (job.2 - 1) ∧
        l.owner? (job.2 - 1) = none ∧
        s.Placeable (l.assign job.1 (job.2 - 1) (s.probeWidth (job.2 - 1))) rest := by
  have hIn : 1 ≤ job.2 → job.2 ≤ s.lastProbe → job.2 - 1 < l.owner.length := by
    intro hPos hLe
    have := lastProbe_le (s := s)
    omega
  constructor
  · rintro ⟨hRange, hWide, hDistinct, hFree⟩
    obtain ⟨hFirst, hRestRange⟩ := List.forall_mem_cons.mp hRange
    obtain ⟨hFirstWide, hRestWide⟩ := List.forall_mem_cons.mp hWide
    obtain ⟨hFirstFree, hRestFree⟩ := List.forall_mem_cons.mp hFree
    obtain ⟨hNew, hRestDistinct⟩ := List.nodup_cons.mp hDistinct
    refine ⟨hFirst, hFirstWide, hFirstFree, hRestRange, hRestWide, hRestDistinct, fun other hOther => ?_⟩
    have hNe : job.2 - 1 ≠ other.2 - 1 := by
      intro hEq
      have := (hRestRange other hOther).1
      have hSame : job.2 = other.2 := by omega
      exact hNew (hSame ▸ List.mem_map_of_mem hOther)
    rw [Layout.owner?_assign (hIn hFirst.1 hFirst.2), if_neg hNe]
    exact hRestFree other hOther
  · rintro ⟨hFirst, hFirstWide, hFirstFree, hRange, hWide, hDistinct, hFree⟩
    -- no other job finds its probe to be the first one's
    have hOther : ∀ other ∈ rest, job.2 - 1 ≠ other.2 - 1 ∧ l.owner? (other.2 - 1) = none := by
      intro other hMem
      have hNone := hFree other hMem
      rw [Layout.owner?_assign (hIn hFirst.1 hFirst.2)] at hNone
      split at hNone
      · cases hNone
      · next hNe => exact ⟨hNe, hNone⟩
    refine ⟨List.forall_mem_cons.mpr ⟨hFirst, hRange⟩, List.forall_mem_cons.mpr ⟨hFirstWide, hWide⟩,
      List.nodup_cons.mpr ⟨fun hMem => ?_, hDistinct⟩,
      List.forall_mem_cons.mpr ⟨hFirstFree, fun other hMem => (hOther other hMem).2⟩⟩
    obtain ⟨other, hMem, hEq⟩ := List.mem_map.mp hMem
    exact (hOther other hMem).1 (by rw [hEq])

theorem length_owner_give (jobs : List (Nat × Nat)) : (s.give l jobs).owner.length = l.owner.length := by
  induction jobs generalizing l with
  | nil => rfl
  | cons job rest ih =>
    rw [give, List.foldl_cons]
    exact ih.trans Layout.length_owner_assign

theorem placeable_append (hLength : l.owner.length = interfaceCount) {front back : List (Nat × Nat)} :
    s.Placeable l (front ++ back) ↔ s.Placeable l front ∧ s.Placeable (s.give l front) back := by
  induction front generalizing l with
  | nil => exact ⟨fun h => ⟨placeable_nil, h⟩, fun h => h.2⟩
  | cons job rest ih =>
    rw [List.cons_append, placeable_cons hLength, placeable_cons hLength,
      ih (Layout.length_owner_assign.trans hLength)]
    simp only [and_assoc]
    rfl

/-- What an interface owns in the end: what it owned before and the probes given to it, in order. -/
theorem order_give (jobs : List (Nat × Nat)) (i : Nat) :
    (s.give l jobs).order[i]? =
      (l.order[i]?).map (· ++ (jobs.filter (·.1 == i)).map (·.2 - 1)) := by
  induction jobs generalizing l with
  | nil => simp [give]
  | cons job rest ih =>
    rw [give, List.foldl_cons]
    refine ih.trans ?_
    rw [Layout.order_assign, Option.map_map]
    refine congrArg (Option.map · _) (funext fun old => ?_)
    by_cases hCore : job.1 = i
    · simp [hCore]
    · simp [hCore]

/-- A probe that no job names has the owner it had. -/
theorem owner?_give {jobs : List (Nat × Nat)} (hPlaceable : s.Placeable l jobs)
    (hLength : l.owner.length = interfaceCount) {p : Nat} (h : ∀ job ∈ jobs, job.2 - 1 ≠ p) :
    (s.give l jobs).owner? p = l.owner? p := by
  induction jobs generalizing l with
  | nil => rfl
  | cons job rest ih =>
    obtain ⟨⟨hPos, hLe⟩, -, -, hRest⟩ := (placeable_cons hLength).mp hPlaceable
    obtain ⟨hFirst, hOthers⟩ := List.forall_mem_cons.mp h
    have hLast := lastProbe_le (s := s)
    rw [give, List.foldl_cons]
    refine (ih hRest (Layout.length_owner_assign.trans hLength) hOthers).trans ?_
    rw [Layout.owner?_assign (by omega), if_neg hFirst]

-- ---------------------------------------------------------------------------
-- Unpacking as a list of jobs
-- ---------------------------------------------------------------------------

theorem exists_interface (h : s.interfaces.length = interfaceCount) {i : Nat} (hi : i < interfaceCount) :
    ∃ itf, s.interface i = .ok itf ∧ itf.probeWidth = s.probeWidth i ∧ itf.packed = s.packedAt i := by
  have hGet : s.interfaces[i]? = some s.interfaces[i] := List.getElem?_eq_getElem (h ▸ hi)
  refine ⟨s.interfaces[i], interface_eq_ok.mpr hGet, probeWidth_of_interface (interface_eq_ok.mpr hGet), ?_⟩
  rw [packedAt, hGet, Option.map_some, Option.getD_some]

/-- **Unpacking one word does its jobs.** It succeeds exactly if they can be done, and never faults. -/
theorem place_result (hItf : s.interfaces.length = interfaceCount) (core : Nat) (ps : List Nat)
    (hLength : l.owner.length = interfaceCount) :
    ∃ found, (s.place core ps l).result = .ok found ∧
      ∀ l', found = some l' ↔ s.Placeable l (ps.map (core, ·)) ∧ s.give l (ps.map (core, ·)) = l' := by
  induction ps generalizing l with
  | nil =>
    refine ⟨some l, rfl, fun l' => ?_⟩
    exact ⟨fun h => ⟨placeable_nil, Option.some.inj h⟩, fun h => congrArg some h.2⟩
  | cons p rest ih =>
    have hLast := lastProbe_le (s := s)
    rw [List.map_cons, place]
    split
    · next hRange =>
      refine ⟨none, rfl, fun l' => iff_of_false (by simp) fun h => ?_⟩
      obtain ⟨⟨hPos, hLe⟩, -⟩ := (placeable_cons hLength).mp h.1
      dsimp only at hPos hLe
      omega
    next hRange =>
      obtain ⟨itf, hOk, hWidth, -⟩ := exists_interface hItf (show p - 1 < interfaceCount by omega)
      rw [Run.result_bind, Run.result_ofExcept, hOk]
      dsimp only
      rw [hWidth]
      split
      · next hZero =>
        refine ⟨none, rfl, fun l' => iff_of_false (by simp) fun h => ?_⟩
        obtain ⟨-, hWide, -⟩ := (placeable_cons hLength).mp h.1
        dsimp only at hWide
        omega
      next hPos =>
      split
      · next hOwned =>
        refine ⟨none, rfl, fun l' => iff_of_false (by simp) fun h => ?_⟩
        obtain ⟨-, -, hFree, -⟩ := (placeable_cons hLength).mp h.1
        dsimp only at hFree
        rw [hFree] at hOwned
        cases hOwned
      · next hFree =>
        rw [Run.result_lift_bind]
        obtain ⟨found, hFound, hIff⟩ := ih (l := l.assign core (p - 1) (s.probeWidth (p - 1)))
          (Layout.length_owner_assign.trans hLength)
        refine ⟨found, hFound, fun l' => ?_⟩
        rw [hIff, placeable_cons hLength]
        have hHead : (1 ≤ p ∧ p ≤ s.lastProbe) ∧ 0 < s.probeWidth (p - 1) ∧
            l.owner? (p - 1) = none := by
          refine ⟨by omega, by omega, ?_⟩
          simpa using hFree
        constructor
        · rintro ⟨hPlaceable, hGive⟩
          exact ⟨⟨hHead.1, hHead.2.1, hHead.2.2, hPlaceable⟩, hGive⟩
        · rintro ⟨⟨-, -, -, hPlaceable⟩, hGive⟩
          exact ⟨hPlaceable, hGive⟩

/-- **Unpacking several words does the jobs of all of them.** Native interfaces have a word to unpack,
and only they have one. -/
theorem placeAll_result (hItf : s.interfaces.length = interfaceCount) {is : List Nat}
    (hIs : ∀ i ∈ is, i < interfaceCount) (hLength : l.owner.length = interfaceCount) :
    ∃ found, (s.placeAll is l).result = .ok found ∧
      ∀ l', found = some l' ↔ (∀ i ∈ is, s.nativeCount ≤ i ↔ s.packedAt i = 0) ∧
        s.Placeable l (s.jobs is) ∧ s.give l (s.jobs is) = l' := by
  induction is generalizing l with
  | nil =>
    refine ⟨some l, rfl, fun l' => ?_⟩
    exact ⟨fun h => ⟨by simp, placeable_nil, Option.some.inj h⟩, fun h => congrArg some h.2.2⟩
  | cons i rest ih =>
    obtain ⟨hFirst, hRest⟩ := List.forall_mem_cons.mp hIs
    obtain ⟨itf, hOk, -, hPacked⟩ := exists_interface hItf hFirst
    have hJobs : s.jobs (i :: rest) = (nibbles (s.packedAt i)).map (i, ·) ++ s.jobs rest :=
      List.flatMap_cons ..
    rw [placeAll, Run.result_bind, Run.result_ofExcept, hOk]
    dsimp only
    rw [hPacked]
    simp only [List.forall_mem_cons]
    split
    · next hOther =>
      split
      · next hSome => exact ⟨none, rfl, fun l' => iff_of_false (by simp) fun h => hSome (h.1.1.mp hOther)⟩
      · next hNone =>
        have hZero : s.packedAt i = 0 := not_not.mp hNone
        obtain ⟨found, hFound, hIff⟩ := ih hRest hLength
        refine ⟨found, hFound, fun l' => ?_⟩
        rw [hIff, hJobs, hZero]
        exact ⟨fun h => ⟨⟨⟨fun _ => rfl, fun _ => hOther⟩, h.1⟩, h.2⟩, fun h => ⟨h.1.2, h.2⟩⟩
    next hNative =>
    split
    · next hZero => exact ⟨none, rfl, fun l' => iff_of_false (by simp) fun h => hNative (h.1.1.mpr hZero)⟩
    next hSome =>
    obtain ⟨placed, hPlaced, hPlacedIff⟩ := place_result hItf i (nibbles (s.packedAt i)) hLength
    rw [Run.result_bind, hPlaced, hJobs, placeable_append hLength]
    cases placed with
    | none =>
      refine ⟨none, rfl, fun l' => iff_of_false (by simp) fun h => ?_⟩
      have := (hPlacedIff _).mpr ⟨h.2.1.1, rfl⟩
      cases this
    | some next =>
      obtain ⟨hPlaceable, hGive⟩ := (hPlacedIff next).mp rfl
      obtain ⟨found, hFound, hIff⟩ := ih (l := next) hRest
        (by rw [← hGive, length_owner_give, hLength])
      refine ⟨found, hFound, fun l' => ?_⟩
      rw [hIff, give_append, hGive]
      constructor
      · rintro ⟨hWords, hLater, hEnd⟩
        exact ⟨⟨⟨fun h => absurd h hNative, fun h => absurd h hSome⟩, hWords⟩, ⟨hPlaceable, hLater⟩, hEnd⟩
      · rintro ⟨⟨-, hWords⟩, ⟨-, hLater⟩, hEnd⟩
        exact ⟨hWords, hLater, hEnd⟩

-- ---------------------------------------------------------------------------
-- The words of a subsystem
-- ---------------------------------------------------------------------------

/-- What the words of all interfaces list. -/
def words (s : Subsystem) : List (List Nat) :=
  (List.range interfaceCount).map fun i => nibbles (s.packedAt i)

/-- The jobs of all interfaces. -/
def allJobs (s : Subsystem) : List (Nat × Nat) :=
  s.jobs (List.range interfaceCount)

theorem map_snd_allJobs : s.allJobs.map Prod.snd = s.words.flatten := by
  rw [allJobs, jobs, words, List.map_flatMap, List.flatMap_def]
  simp only [List.map_map, Function.comp_def, List.map_id']

theorem words_getElem? {i : Nat} (h : i < interfaceCount) :
    s.words[i]? = some (nibbles (s.packedAt i)) := by
  rw [words, List.getElem?_map, List.getElem?_range h, Option.map_some]

theorem filter_jobs {is : List Nat} (hNodup : is.Nodup) {i : Nat} (hi : i ∈ is) :
    (s.jobs is).filter (·.1 == i) = (nibbles (s.packedAt i)).map (i, ·) := by
  have hOne : ∀ j, ((nibbles (s.packedAt j)).map (j, ·)).filter (·.1 == i) =
      if j = i then (nibbles (s.packedAt j)).map (j, ·) else [] := by
    intro j
    rw [List.filter_map]
    by_cases hj : j = i
    · simp [Function.comp_def, hj]
    · simp [Function.comp_def, hj]
  induction is with
  | nil => cases hi
  | cons j rest ih =>
    obtain ⟨hNew, hRest⟩ := List.nodup_cons.mp hNodup
    have hSplit : s.jobs (j :: rest) = (nibbles (s.packedAt j)).map (j, ·) ++ s.jobs rest :=
      List.flatMap_cons ..
    rw [hSplit, List.filter_append, hOne]
    by_cases hj : j = i
    · have hNone : (s.jobs rest).filter (·.1 == i) = [] := by
        refine List.filter_eq_nil_iff.mpr fun job hJob => ?_
        obtain ⟨k, hk, hJob⟩ := List.mem_flatMap.mp hJob
        obtain ⟨p, -, rfl⟩ := List.mem_map.mp hJob
        simp only [beq_iff_eq]
        rintro rfl
        exact hNew (hj ▸ hk)
      rw [if_pos hj, hNone, List.append_nil, hj]
    · rw [if_neg hj, List.nil_append]
      exact ih hRest ((List.mem_cons.mp hi).resolve_left (Ne.symm hj))

/-- What an interface owns after all jobs are what its word lists, by position. -/
theorem order_unpacked {i : Nat} (h : i < interfaceCount) :
    (s.give Layout.empty s.allJobs).order[i]? = some ((nibbles (s.packedAt i)).map (· - 1)) := by
  rw [order_give, Layout.order_empty h, Option.map_some, List.nil_append, allJobs,
    filter_jobs List.nodup_range (List.mem_range.mpr h), List.map_map]
  rfl

/-- The words list every probe once, for the native interfaces and for no others. -/
structure Legible (s : Subsystem) : Prop where
  native    : ∀ i < interfaceCount, s.nativeCount ≤ i ↔ s.packedAt i = 0
  placeable : s.Placeable Layout.empty s.allJobs
  count     : s.words.flatten.length = s.probeCount

/-- After all jobs of legible words, the layout is sound. -/
theorem sound_unpacked (hItf : s.interfaces.length = interfaceCount)
    (hNative : ∀ i < interfaceCount, s.nativeCount ≤ i ↔ s.packedAt i = 0)
    (hPlaceable : s.Placeable Layout.empty s.allJobs) : (s.give Layout.empty s.allJobs).Sound s := by
  have hIs : ∀ i ∈ List.range interfaceCount, i < interfaceCount := fun i hi => List.mem_range.mp hi
  obtain ⟨found, hFound, hIff⟩ := placeAll_result hItf hIs (Layout.sound_empty s).owner_length
  have hSome := (hIff _).mpr ⟨fun i hi => hNative i (hIs i hi), hPlaceable, rfl⟩
  rw [hSome] at hFound
  exact (placeAll_sound hIs (Layout.sound_empty s) hFound).1

theorem order_eq_words (hLength : (s.give Layout.empty s.allJobs).order.length = interfaceCount) :
    (s.give Layout.empty s.allJobs).order = s.words.map (List.map (· - 1)) := by
  refine List.ext_getElem? fun i => ?_
  rw [List.getElem?_map]
  by_cases hi : i < interfaceCount
  · rw [order_unpacked hi, words_getElem? hi, Option.map_some]
  · rw [List.getElem?_eq_none_iff.mpr (by omega), List.getElem?_eq_none_iff.mpr (by simp [words]; omega),
      Option.map_none]

theorem firstBare?_eq_ok {l : Layout} {is : List Nat}
    (h : ∀ i ∈ is, ∃ order, l.order[i]? = some order ∧ order ≠ []) : firstBare? l is = .ok none := by
  induction is with
  | nil => rfl
  | cons i rest ih =>
    obtain ⟨⟨order, hOrder, hSome⟩, hRest⟩ := List.forall_mem_cons.mp h
    rw [firstBare?, hOrder]
    cases order with
    | nil => exact absurd rfl hSome
    | cons p ps => exact ih hRest

theorem nibbles_eq_nil_iff {n : Nat} : nibbles n = [] ↔ n = 0 := by
  rw [nibbles_eq_digits, Nat.digits_eq_nil_iff_eq_zero]

/-- The bridge, if there is one, has an interface, and no word there. -/
theorem bridgeIsBare_unpacked (hItf : s.interfaces.length = interfaceCount) (h : s.Legible) :
    bridgeIsBare (s.give Layout.empty s.allJobs) s.bridgeIndex? = true ↔
      ∀ i, s.bridgeIndex? = some i → 0 ≤ i ∧ i < interfaceCount := by
  have hSound := sound_unpacked hItf h.native h.placeable
  cases hBridge : s.bridgeIndex? with
  | none => simp [bridgeIsBare]
  | some i =>
    have hNative : s.nativeCount = i := by
      unfold bridgeIndex? at hBridge
      split at hBridge
      · cases hBridge
      · exact Option.some.inj hBridge
    rw [bridgeIsBare, Bool.and_eq_true, decide_eq_true_eq, beq_iff_eq]
    simp only [Option.some.injEq, forall_eq']
    refine and_congr_right fun hPos => ?_
    constructor
    · intro hWidth
      have := (List.getElem?_eq_some_iff.mp hWidth).1
      rw [hSound.width_length] at this
      omega
    · intro hLt
      have hIndex : i.toNat < interfaceCount := by omega
      have hZero : s.packedAt i.toNat = 0 := (h.native i.toNat hIndex).mp (by omega)
      have hOrder := order_unpacked (s := s) hIndex
      rw [hZero] at hOrder
      exact hSound.coreWidth i.toNat [] hOrder

/-- **Unpacking succeeds exactly on legible words** in a subsystem where the bridge has an interface. It
never faults. -/
theorem decodeLayout_result (hItf : s.interfaces.length = interfaceCount)
    (hNative : s.nativeCount ≤ interfaceCount) :
    ∃ found, s.decodeLayout.result = .ok found ∧
      ∀ l, found = some l ↔ s.Legible ∧ (∀ i, s.bridgeIndex? = some i → 0 ≤ i ∧ i < interfaceCount) ∧
        s.give Layout.empty s.allJobs = l := by
  have hIs : ∀ i ∈ List.range interfaceCount, i < interfaceCount := fun i hi => List.mem_range.mp hi
  obtain ⟨placed, hPlaced, hIff⟩ := placeAll_result hItf hIs (Layout.sound_empty s).owner_length
  unfold decodeLayout
  rw [Run.result_lift_bind, Run.result_bind, hPlaced]
  cases placed with
  | none =>
    refine ⟨none, rfl, fun l => iff_of_false (by simp) fun h => ?_⟩
    have := (hIff _).mpr ⟨fun i hi => h.1.native i (hIs i hi), h.1.placeable, rfl⟩
    cases this
  | some layout =>
    obtain ⟨hWords, hPlaceable, hGive⟩ := (hIff layout).mp rfl
    replace hWords : ∀ i < interfaceCount, s.nativeCount ≤ i ↔ s.packedAt i = 0 := fun i hi =>
      hWords i (List.mem_range.mpr hi)
    have hGive : s.give Layout.empty s.allJobs = layout := hGive
    have hSound : layout.Sound s := hGive ▸ sound_unpacked hItf hWords hPlaceable
    have hOwned : layout.ownedCount = s.words.flatten.length := by
      rw [hSound.owned, ← hGive, order_eq_words (hGive ▸ hSound.order_length), ← List.map_flatten,
        List.length_map]
    dsimp only
    split
    · next hCount =>
      refine ⟨none, rfl, fun l => iff_of_false (by simp) fun h => hCount ?_⟩
      rw [hOwned, h.1.count]
    next hCount =>
    have hLegible : s.Legible := ⟨hWords, hPlaceable, by omega⟩
    -- no native interface is without probes, because its word is not zero
    have hBare : firstBare? layout (List.range s.nativeCount.toNat) = .ok none := by
      refine firstBare?_eq_ok fun i hi => ?_
      have hi := List.mem_range.mp hi
      have hLt : i < interfaceCount := by omega
      refine ⟨_, hGive ▸ order_unpacked hLt, fun hNil => ?_⟩
      have hZero := nibbles_eq_nil_iff.mp (List.map_eq_nil_iff.mp hNil)
      have := (hWords i hLt).mpr hZero
      omega
    rw [Run.result_bind, Run.result_ofExcept, hBare]
    dsimp only
    have hBridge := bridgeIsBare_unpacked hItf hLegible
    rw [hGive] at hBridge
    split
    · next hTrue =>
      refine ⟨some layout, rfl, fun l => ?_⟩
      exact ⟨fun h => ⟨hLegible, hBridge.mp hTrue, hGive.trans (Option.some.inj h)⟩,
        fun h => congrArg some (hGive.symm.trans h.2.2)⟩
    · next hFalse =>
      exact ⟨none, rfl, fun l => iff_of_false (by simp) fun h => hFalse (hBridge.mpr h.2.1)⟩

-- ---------------------------------------------------------------------------
-- Lists and words
-- ---------------------------------------------------------------------------

/-- The words pack the lists: one list for each native interface, all of them together the probes from
the first to the last, each list the digits of its interface's word and all other words zero. -/
structure Packs (s : Subsystem) (lists : List (List Nat)) : Prop where
  count    : (lists.length : Int) = s.nativeCount
  nonempty : ∀ ps ∈ lists, ps ≠ []
  perm     : lists.flatten.Perm (List.range' 1 s.probeCount)
  small    : ∀ p ∈ lists.flatten, p ≤ interfaceCount
  wide     : ∀ p ∈ lists.flatten, s.probeWidth (p - 1) ≠ 0
  word     : ∀ (i : Nat) ps, lists[i]? = some ps → s.packedAt i = Nat.ofDigits 16 ps
  rest     : ∀ i, lists.length ≤ i → i < interfaceCount → s.packedAt i = 0

variable {lists : List (List Nat)}

theorem Packs.pos (h : s.Packs lists) {p : Nat} (hp : p ∈ lists.flatten) : 1 ≤ p :=
  (List.mem_range'_1.mp (h.perm.mem_iff.mp hp)).1

theorem Packs.length_le (h : s.Packs lists) (hNative : s.nativeCount ≤ interfaceCount) :
    lists.length ≤ interfaceCount := by
  have := h.count
  omega

/-- The lists are what the words unpack to. -/
theorem Packs.nibbles_eq (h : s.Packs lists) {i : Nat} {ps : List Nat} (hi : lists[i]? = some ps) :
    nibbles (s.packedAt i) = ps := by
  have hMem : ∀ p ∈ ps, p ∈ lists.flatten := fun p hp =>
    List.mem_flatten.mpr ⟨ps, List.mem_of_getElem? hi, hp⟩
  rw [h.word i ps hi]
  exact nibbles_ofDigits (fun p hp => h.pos (hMem p hp)) fun p hp =>
    Nat.lt_succ_of_le (h.small p (hMem p hp))

theorem Packs.words_eq (h : s.Packs lists) (hNative : s.nativeCount ≤ interfaceCount) :
    s.words = lists ++ List.replicate (interfaceCount - lists.length) [] := by
  have hLength := h.length_le hNative
  refine List.ext_getElem? fun i => ?_
  by_cases hi : i < lists.length
  · rw [List.getElem?_append_left hi, words_getElem? (by omega),
      h.nibbles_eq (List.getElem?_eq_getElem hi), List.getElem?_eq_getElem hi]
  · rw [List.getElem?_append_right (by omega), List.getElem?_replicate]
    split
    · next hRest => rw [words_getElem? (by omega), h.rest i (by omega) (by omega)]; rfl
    · rw [List.getElem?_eq_none_iff]
      simp only [words, List.length_map, List.length_range]
      omega

theorem Packs.flatten_words (h : s.Packs lists) (hNative : s.nativeCount ≤ interfaceCount) :
    s.words.flatten = lists.flatten := by
  rw [h.words_eq hNative, List.flatten_append]
  simp

/-- **There is only one way to read the words.** -/
theorem Packs.unique {lists' : List (List Nat)} (h : s.Packs lists) (h' : s.Packs lists')
    (hNative : s.nativeCount ≤ interfaceCount) : lists' = lists := by
  have hLength : lists'.length = lists.length := by
    have := h.count
    have := h'.count
    omega
  have hWords := h'.words_eq hNative
  rw [h.words_eq hNative, hLength] at hWords
  exact (List.append_cancel_right hWords).symm

/-- Words that pack some lists are legible. -/
theorem Packs.legible (h : s.Packs lists) (hNative : s.nativeCount ≤ interfaceCount) : s.Legible := by
  have hLength := h.length_le hNative
  have hJob : ∀ job ∈ s.allJobs, job.2 ∈ lists.flatten := by
    intro job hJob
    rw [← h.flatten_words hNative, ← map_snd_allJobs]
    exact List.mem_map_of_mem hJob
  refine ⟨fun i hi => ?_, ⟨fun job hMem => ?_, fun job hMem => ?_, ?_, fun job hMem => ?_⟩, ?_⟩
  · have hCount := h.count
    constructor
    · intro hOther
      exact h.rest i (by omega) hi
    · intro hZero
      by_contra hLt
      have hList : lists[i]? = some lists[i] := List.getElem?_eq_getElem (by omega)
      have hNil := h.nibbles_eq hList
      rw [hZero] at hNil
      exact h.nonempty _ (List.mem_of_getElem? hList) hNil.symm
  · refine ⟨h.pos (hJob job hMem), Nat.le_min.mpr ⟨h.small _ (hJob job hMem), ?_⟩⟩
    have := (List.mem_range'_1.mp (h.perm.mem_iff.mp (hJob job hMem))).2
    omega
  · exact Nat.pos_of_ne_zero (h.wide _ (hJob job hMem))
  · rw [map_snd_allJobs, h.flatten_words hNative, h.perm.nodup_iff]
    exact List.nodup_range'
  · exact Layout.owner?_empty _
  · rw [h.flatten_words hNative, h.perm.length_eq, List.length_range']

/-- What the words of the native interfaces list. -/
theorem take_words_getElem? (hNative : s.nativeCount ≤ interfaceCount) {i : Nat} {ps : List Nat}
    (h : (s.words.take s.nativeCount.toNat)[i]? = some ps) :
    i < s.nativeCount.toNat ∧ ps = nibbles (s.packedAt i) := by
  rw [List.getElem?_take] at h
  split at h
  · next hLt =>
    rw [words_getElem? (by omega)] at h
    exact ⟨hLt, (Option.some.inj h).symm⟩
  · cases h

/-- Behind the native interfaces nothing is listed. -/
theorem Legible.flatten_take (h : s.Legible) :
    (s.words.take s.nativeCount.toNat).flatten = s.words.flatten := by
  have hDrop : (s.words.drop s.nativeCount.toNat).flatten = [] := by
    refine List.flatten_eq_nil_iff.mpr fun ps hps => ?_
    obtain ⟨j, hj⟩ := List.getElem?_of_mem hps
    rw [List.getElem?_drop] at hj
    have hLt : s.nativeCount.toNat + j < interfaceCount := by
      have := (List.getElem?_eq_some_iff.mp hj).1
      rwa [words, List.length_map, List.length_range] at this
    rw [words_getElem? hLt] at hj
    rw [← Option.some.inj hj]
    exact nibbles_eq_nil_iff.mpr ((h.native _ hLt).mp (by omega))
  conv_rhs => rw [← List.take_append_drop s.nativeCount.toNat s.words, List.flatten_append, hDrop]
  rw [List.append_nil]

/-- The numbers listed are those of the jobs. -/
theorem Legible.listed (h : s.Legible) {p : Nat} (hp : p ∈ s.words.flatten) :
    (1 ≤ p ∧ p ≤ s.lastProbe) ∧ 0 < s.probeWidth (p - 1) := by
  rw [← map_snd_allJobs] at hp
  obtain ⟨job, hJob, rfl⟩ := List.mem_map.mp hp
  exact ⟨h.placeable.inRange job hJob, h.placeable.wide job hJob⟩

theorem Legible.perm (h : s.Legible) : s.words.flatten.Perm (List.range' 1 s.probeCount) := by
  have hNodup : s.words.flatten.Nodup := map_snd_allJobs ▸ h.placeable.distinct
  have hSubset : s.words.flatten ⊆ List.range' 1 s.probeCount := by
    intro p hp
    obtain ⟨⟨hFirst, hLast⟩, -⟩ := h.listed hp
    have : s.lastProbe ≤ s.probeCount := Nat.min_le_right _ _
    exact List.mem_range'_1.mpr ⟨hFirst, by omega⟩
  refine (List.subperm_of_subset hNodup hSubset).perm_of_length_le ?_
  rw [List.length_range', h.count]

/-- Legible words pack the lists they are unpacked to. -/
theorem Legible.packs (h : s.Legible) (hPos : 0 ≤ s.nativeCount)
    (hNative : s.nativeCount ≤ interfaceCount) : s.Packs (s.words.take s.nativeCount.toNat) := by
  have hLength : (s.words.take s.nativeCount.toNat).length = s.nativeCount.toNat := by
    rw [List.length_take, words, List.length_map, List.length_range]
    omega
  refine
    { count := by rw [hLength]; omega
      nonempty := ?nonempty, perm := h.flatten_take ▸ h.perm, small := ?small, wide := ?wide
      word := ?word, rest := ?rest }
  case nonempty =>
    intro ps hps hNil
    obtain ⟨i, hi⟩ := List.getElem?_of_mem hps
    obtain ⟨hLt, rfl⟩ := take_words_getElem? hNative hi
    have := (h.native i (by omega)).mpr (nibbles_eq_nil_iff.mp hNil)
    omega
  case small =>
    intro p hp
    rw [h.flatten_take] at hp
    exact Nat.le_trans (h.listed hp).1.2 lastProbe_le
  case wide =>
    intro p hp
    rw [h.flatten_take] at hp
    exact Nat.ne_of_gt (h.listed hp).2
  case word =>
    intro i ps hi
    obtain ⟨-, rfl⟩ := take_words_getElem? hNative hi
    rw [nibbles_eq_digits, Nat.ofDigits_digits]
  case rest =>
    intro i hi hLt
    rw [hLength] at hi
    exact (h.native i hLt).mp (by omega)

end Subsystem

/-- The layout is the one that the lists describe: each interface owns the probes of its list, by
position, and a probe lies behind those listed before it. -/
structure Layout.Describes (s : Subsystem) (lists : List (List Nat)) (l : Layout) : Prop where
  order        : l.order = lists.map (List.map (· - 1)) ++
                   List.replicate (interfaceCount - lists.length) []
  owner_length : l.owner.length = interfaceCount
  owner        : ∀ p i offset, l.owner? p = some ⟨i, offset⟩ ↔
                   ∃ before after, l.order[i]? = some (before ++ p :: after) ∧ offset = s.span before
  coreWidth    : l.coreWidth = l.order.map s.span

namespace Subsystem

variable {s : Subsystem} {lists : List (List Nat)}

theorem describes_unpacked (hItf : s.interfaces.length = interfaceCount)
    (hNative : s.nativeCount ≤ interfaceCount) (h : s.Packs lists) :
    (s.give Layout.empty s.allJobs).Describes s lists := by
  have hLegible := h.legible hNative
  have hSound := sound_unpacked hItf hLegible.native hLegible.placeable
  have hOrder := order_eq_words hSound.order_length
  have hEmpty := Layout.sound_empty s
  refine ⟨?_, hSound.owner_length, fun p i offset => ⟨fun hOwner => ?_, ?_⟩, ?_⟩
  · rw [hOrder, h.words_eq hNative, List.map_append, List.map_replicate, List.map_nil]
  · -- a probe with an owner was named by a job, so it stands in some list
    have hMem : p ∈ (s.give Layout.empty s.allJobs).order.flatten := by
      by_contra hNot
      have hFree := owner?_give hLegible.placeable hEmpty.owner_length (p := p) fun job hJob hEq => by
        refine hNot ?_
        rw [hOrder, ← List.map_flatten, ← map_snd_allJobs, List.map_map]
        exact List.mem_map.mpr ⟨job, hJob, hEq⟩
      rw [hFree, Layout.owner?_empty] at hOwner
      cases hOwner
    obtain ⟨order, hList, hp⟩ := List.mem_flatten.mp hMem
    obtain ⟨j, hj⟩ := List.getElem?_of_mem hList
    obtain ⟨before, after, rfl⟩ := List.append_of_mem hp
    have hFound := hSound.offset j before p after hj
    rw [hOwner] at hFound
    obtain ⟨rfl, rfl⟩ := Owner.mk.inj (Option.some.inj hFound)
    exact ⟨before, after, hj, rfl⟩
  · rintro ⟨before, after, hi, rfl⟩
    exact hSound.offset i before p after hi
  · exact hSound.coreWidth_eq

/-- The layout found is the one after all jobs. There is one exactly if the words pack some lists and the
bridge, if there is one, has an interface. -/
theorem decodeLayout_eq_some_iff (hItf : s.interfaces.length = interfaceCount)
    (hNative : s.nativeCount ≤ interfaceCount) {l : Layout} :
    s.decodeLayout.result = .ok (some l) ↔
      (∃ lists, s.Packs lists) ∧ (∀ i, s.bridgeIndex? = some i → i < interfaceCount) ∧
        s.give Layout.empty s.allJobs = l := by
  obtain ⟨found, hFound, hIff⟩ := decodeLayout_result hItf hNative
  rw [hFound, Except.ok.injEq, hIff]
  constructor
  · rintro ⟨hLegible, hPlace, hGive⟩
    refine ⟨⟨_, hLegible.packs ?_ hNative⟩, fun i hi => (hPlace i hi).2, hGive⟩
    -- a negative number of native interfaces would leave no place for the bridge
    cases hMode : s.mode with
    | native => simp [nativeCount, hMode]
    | bridge => simp [nativeCount, hMode]
    | nativeAndBridge => exact (hPlace s.nativeCount (by rw [bridgeIndex?, hMode])).1
  · rintro ⟨⟨lists, h⟩, hBridge, hGive⟩
    refine ⟨h.legible hNative, fun i hi => ⟨?_, hBridge i hi⟩, hGive⟩
    have hCount := h.count
    unfold bridgeIndex? at hi
    split at hi
    · cases hi
    · have := Option.some.inj hi
      omega

/-- **Where the bridge has no interface, unpacking refuses all words.** -/
theorem decodeLayout_crowded (hItf : s.interfaces.length = interfaceCount)
    (hNative : s.nativeCount ≤ interfaceCount) {i : Int} (hi : s.bridgeIndex? = some i)
    (hCrowded : interfaceCount ≤ i) : s.decodeLayout.result = .ok none := by
  obtain ⟨found, hFound, -⟩ := decodeLayout_result hItf hNative
  cases found with
  | none => exact hFound
  | some l =>
    obtain ⟨-, hBridge, -⟩ := (decodeLayout_eq_some_iff hItf hNative).mp hFound
    have := hBridge i hi
    omega

/-- **Unpacking is the exact inverse of packing.** In a subsystem with all its interfaces unpacking always ends
with a verdict. It finds a layout exactly if the words pack some lists of probes and the bridge, if there is
one, has an interface. There is one choice of lists, and the layout is the one they describe. -/
theorem decodeLayout_packs (hItf : s.interfaces.length = interfaceCount)
    (hNative : s.nativeCount ≤ interfaceCount) :
    (∃ found, s.decodeLayout.result = .ok found) ∧
      ((∃ l, s.decodeLayout.result = .ok (some l)) ↔
        (∃ lists, s.Packs lists) ∧ ∀ i, s.bridgeIndex? = some i → i < interfaceCount) ∧
      (∀ lists lists', s.Packs lists → s.Packs lists' → lists' = lists) ∧
      ∀ l lists, s.decodeLayout.result = .ok (some l) → s.Packs lists → l.Describes s lists := by
  obtain ⟨found, hFound, -⟩ := decodeLayout_result hItf hNative
  refine ⟨⟨found, hFound⟩, ⟨?_, ?_⟩, fun lists lists' h h' => h.unique h' hNative, ?_⟩
  · rintro ⟨l, hl⟩
    obtain ⟨hPacks, hBridge, -⟩ := (decodeLayout_eq_some_iff hItf hNative).mp hl
    exact ⟨hPacks, hBridge⟩
  · rintro ⟨hPacks, hBridge⟩
    exact ⟨_, (decodeLayout_eq_some_iff hItf hNative).mpr ⟨hPacks, hBridge, rfl⟩⟩
  · intro l lists hl h
    obtain ⟨-, -, rfl⟩ := (decodeLayout_eq_some_iff hItf hNative).mp hl
    exact describes_unpacked hItf hNative h

end Subsystem

/-! ## Two subsystems -/

/-- Two native interfaces and a bridge; the first interface lists the first and the third probe. -/
def pairedSubsystem : Subsystem :=
  { name := "ocla_debug_subsystem", params := ⟨[], []⟩, type := "OCLA", version := 1, id := 4660
    mode := .nativeAndBridge, bus := some .lite, busCount := 1, coreCount := 3, probeCount := 3
    probesSum := 159
    interfaces := [⟨4, 4096, 0x31⟩, ⟨1, 8192, 2⟩, ⟨2, 12288, 0⟩] ++
      (List.range 12).map fun i => ⟨0, 4096 * (i + 4), 0⟩ }

theorem pairedSubsystem_packs_lists : pairedSubsystem.Packs [[1, 3], [2]] := by
  refine ⟨by decide, by decide, by decide, by decide, by decide, ?_, ?_⟩
  · intro i ps hi
    match i with
    | 0 => cases hi; decide
    | 1 => cases hi; decide
    | i + 2 => simp at hi
  · intro i hi hLt
    have hZero : ∀ i < interfaceCount, 2 ≤ i → pairedSubsystem.packedAt i = 0 := by decide
    exact hZero i hLt hi

/-- Its words unpack to the two lists, and the third probe lies behind the four bits of the first. -/
theorem pairedSubsystem_packs : ∃ l, pairedSubsystem.decodeLayout.result = .ok (some l) ∧
    l.Describes pairedSubsystem [[1, 3], [2]] ∧ l.owner? 2 = some ⟨0, 4⟩ := by
  have hBridge : ∀ i, pairedSubsystem.bridgeIndex? = some i → i < interfaceCount := by
    intro i hi
    cases hi
    decide
  obtain ⟨-, hSome, -, hDescribes⟩ := Subsystem.decodeLayout_packs (s := pairedSubsystem) (by decide)
    (by decide)
  obtain ⟨l, hl⟩ := hSome.mpr ⟨⟨_, pairedSubsystem_packs_lists⟩, hBridge⟩
  have hLayout := hDescribes l _ hl pairedSubsystem_packs_lists
  refine ⟨l, hl, hLayout, (hLayout.owner 2 0 4).mpr ⟨[0], [], ?_, by decide⟩⟩
  rw [hLayout.order]
  rfl

/-- Fifteen native interfaces and a bridge besides, for which there is no interface left. -/
def crowdedSubsystem : Subsystem :=
  { name := "ocla_debug_subsystem", params := ⟨[], []⟩, type := "OCLA", version := 1, id := 4660
    mode := .nativeAndBridge, bus := none, busCount := 0, coreCount := 16, probeCount := 15
    probesSum := 15
    interfaces := (List.range 15).map fun i => ⟨1, 4096 * (i + 1), i + 1⟩ }

/-- Its words pack fifteen lists of one probe each. Unpacking finds no layout all the same. -/
theorem crowdedSubsystem_refused : crowdedSubsystem.interfaces.length = interfaceCount ∧
    crowdedSubsystem.nativeCount ≤ interfaceCount ∧ (∃ lists, crowdedSubsystem.Packs lists) ∧
    ¬∃ l, crowdedSubsystem.decodeLayout.result = .ok (some l) := by
  refine ⟨by decide, by decide, ⟨(List.range 15).map fun i => [i + 1], ?_⟩, ?_⟩
  · refine ⟨by decide, by decide, by decide, by decide, by decide, ?_, ?_⟩
    · intro i ps hi
      rw [List.getElem?_map] at hi
      obtain ⟨j, hj, rfl⟩ := Option.map_eq_some_iff.mp hi
      obtain ⟨hLt, rfl⟩ := List.getElem?_eq_some_iff.mp hj
      rw [List.length_range] at hLt
      have hWord : ∀ i < 15, crowdedSubsystem.packedAt i = Nat.ofDigits 16 [i + 1] := by decide
      rw [List.getElem_range]
      exact hWord i hLt
    · intro i hi hLt
      rw [List.length_map, List.length_range] at hi
      exact absurd hLt (Nat.not_lt.mpr hi)
  · have hRefused : crowdedSubsystem.decodeLayout.result = .ok none :=
      Subsystem.decodeLayout_crowded (by decide) (by decide) rfl (by decide)
    rintro ⟨l, hl⟩
    rw [hRefused] at hl
    cases hl

end ProbeAtlas
