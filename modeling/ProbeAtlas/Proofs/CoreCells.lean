import Mathlib.Algebra.Order.BigOperators.Group.List
import Mathlib.Algebra.Order.Group.Nat
import Mathlib.Data.Nat.Cast.Basic
import ProbeAtlas.Proofs.ReportConsistency

/-!
# ProbeAtlas — the cells of reported cores

A core that is reported should be in the subsystem: one cell of the design instantiates its module, and
the subsystem holds that cell. The cross-check looks at the holders of the cells of all cores taken
together. It compares their number with the number of cores, and each of them with the subsystem. So it
cannot tell whether one core has two cells and another has none.

Main results:

* `Design.analyze_cells` — the subsystem holds all cells of reported cores, and there are as many of them as
  cores. Where this does not put every core in its place, some core has no cell and another has several.
* `doubledDesign_strays` — that does happen.
-/

namespace ProbeAtlas

/-- There is one cell of the core's module in the whole design, and the subsystem holds it. -/
def Design.Places (d : Design) (s : Subsystem) (c : Core) : Prop :=
  ∃ u, d.uses c.name = [u] ∧ u.holder.name = s.name

-- ---------------------------------------------------------------------------
-- Holders
-- ---------------------------------------------------------------------------

/-- A traversal that only posts maps its items. -/
theorem Logged.value_mapM {α β : Type} (f : α → Logged β) (xs : List α) :
    (xs.mapM f).value = xs.map fun x => (f x).value := by
  induction xs with
  | nil => rfl
  | cons x xs ih =>
    rw [List.mapM_cons, Logged.value_bind, Logged.value_bind, Logged.value_pure, ih, List.map_cons]

theorem Design.value_holders (d : Design) (name : String) :
    (d.holders name).value = (d.uses name).map fun u => u.holder.name := by
  unfold Design.holders
  dsimp only
  split <;> rfl

/-- The holders of a bench's cores, cell by cell. -/
theorem Analysis.holdersOf_eq (d : Design) (b : Bench) :
    holdersOf d b = b.cores.flatMap fun c => (d.uses c.name).map fun u => u.holder.name := by
  simp only [holdersOf, Logged.value_mapM, Design.value_holders, List.flatMap_def]

-- ---------------------------------------------------------------------------
-- Counting
-- ---------------------------------------------------------------------------

/-- If as many cells were found as were looked for, then each search has found one, or else some search
has found none and another several. -/
theorem one_each_or_stray {α β : Type} {f : α → List β} {xs : List α}
    (h : (xs.map fun x => (f x).length).sum = xs.length) :
    (∀ x ∈ xs, ∃ y, f x = [y]) ∨ (∃ x ∈ xs, f x = []) ∧ ∃ x ∈ xs, 2 ≤ (f x).length := by
  have hOnes : (xs.map fun _ => 1).sum = xs.length := by simp
  by_cases hEmpty : ∃ x ∈ xs, f x = []
  · refine Or.inr ⟨hEmpty, ?_⟩
    -- otherwise no search would make up for the one that found none
    by_contra hNone
    push Not at hNone
    obtain ⟨x, hx, hNil⟩ := hEmpty
    have hLess := List.sum_lt_sum (fun x => (f x).length) (fun _ => 1)
      (fun y hy => Nat.le_of_lt_succ (hNone y hy)) ⟨x, hx, by simp [hNil]⟩
    omega
  · refine Or.inl fun x hx => List.length_eq_one_iff.mp ?_
    push Not at hEmpty
    by_contra hMore
    have hPos : ∀ y ∈ xs, 1 ≤ (f y).length := fun y hy => List.length_pos_iff.mpr (hEmpty y hy)
    have hLess := List.sum_lt_sum (fun _ => 1) (fun x => (f x).length) hPos
      ⟨x, hx, lt_of_le_of_ne (hPos x hx) (Ne.symm hMore)⟩
    omega

-- ---------------------------------------------------------------------------
-- Reported cores
-- ---------------------------------------------------------------------------

namespace Analysis.Qualified

variable {rules : Rules} {d : Design} {b found : Bench} {l : Layout} {t : Target}

/-- Wiring and settling leave the names of the cores as they were. -/
theorem map_name (h : Qualified rules d b found l t) :
    b.cores.map Core.name = found.cores.map Core.name := by
  rw [eq_comm, ← List.forall₂_eq_eq_eq, List.forall₂_map_left_iff, List.forall₂_map_right_iff]
  refine (List.forall₂_map_left_iff.mp h.wired).imp fun c c' hw => ?_
  obtain ⟨signal, rfl⟩ := hw.eq_settle
  rfl

theorem holdersOf_eq (h : Qualified rules d b found l t) : holdersOf d b = holdersOf d found := by
  have hByName : ∀ b : Bench, holdersOf d b =
      (b.cores.map Core.name).flatMap fun name => (d.uses name).map fun u => u.holder.name := by
    intro b
    rw [Analysis.holdersOf_eq, List.flatMap_map]
  rw [hByName, hByName, h.map_name]

/-- The subsystem holds the cells of the cores, of which there are as many as cores. -/
theorem cells (h : Qualified rules d b found l t) :
    (b.cores.map fun c => (d.uses c.name).length).sum = b.cores.length ∧
      ∀ c ∈ b.cores, ∀ u ∈ d.uses c.name, u.holder.name = b.subsystem.name := by
  have hLength : b.cores.length = found.cores.length := by
    rw [← List.length_map Core.name, h.map_name, List.length_map]
  constructor
  · have hPlaces := h.agreement.places
    rw [← h.holdersOf_eq, Analysis.holdersOf_eq, List.length_flatMap] at hPlaces
    simp only [List.length_map] at hPlaces
    omega
  · intro c hc u hu
    have hMem : u.holder.name ∈ holdersOf d found := by
      rw [← h.holdersOf_eq, Analysis.holdersOf_eq]
      exact List.mem_flatMap.mpr ⟨c, hc, List.mem_map_of_mem hu⟩
    rw [h.agreement.holder _ hMem, h.settled]
    rfl

end Analysis.Qualified

/-- **The cells of reported cores.** The subsystem holds all of them, and there are as many as cores. So
every core has one, unless some core has none and another has several. -/
theorem Design.analyze_cells {d : Design} {rules : Rules} {finding : Finding}
    (h : (d.analyze rules).outcome = .ok finding) (hSome : 0 < finding.qualified) :
    ∃ b, (Analysis.stages rules d).result = .ok (some b) ∧ b.cores.length = finding.qualified ∧
      (b.cores.map fun c => (d.uses c.name).length).sum = b.cores.length ∧
      (∀ c ∈ b.cores, ∀ u ∈ d.uses c.name, u.holder.name = b.subsystem.name) ∧
      ((∀ c ∈ b.cores, d.Places b.subsystem c) ∨
        (∃ c ∈ b.cores, d.uses c.name = []) ∧ ∃ c ∈ b.cores, 2 ≤ (d.uses c.name).length) := by
  obtain ⟨log, bench, hStages, -, -, hCount⟩ := Design.analyze_eq_ok h
  cases bench with
  | none =>
    rw [hCount] at hSome
    cases hSome
  | some b =>
    obtain ⟨found, l, t, hQualified⟩ := Analysis.stages_qualified hStages
    obtain ⟨hTotal, hHolder⟩ := hQualified.cells
    refine ⟨b, hStages, hCount.symm, hTotal, hHolder, (one_each_or_stray hTotal).imp_left ?_⟩
    intro hEach c hc
    obtain ⟨u, hu⟩ := hEach c hc
    exact ⟨u, hu, hHolder c hc u (by rw [hu]; exact List.mem_singleton_self u)⟩

/-- In the sample both cores have their cells in the subsystem. -/
theorem sampleDesign_cells : ∃ finding b, (sampleDesign.analyze {}).outcome = .ok finding ∧
    0 < finding.qualified ∧ (Analysis.stages {} sampleDesign).result = .ok (some b) ∧
    b.cores.length = 2 ∧ ∀ c ∈ b.cores, ∀ u ∈ sampleDesign.uses c.name,
      u.holder.name = b.subsystem.name := by
  obtain ⟨finding, -, hOutcome, hCount, -⟩ := sampleDesign_qualifies
  have hSome : 0 < finding.qualified := by
    rw [hCount]
    decide
  obtain ⟨b, hStages, hLength, -, hHolder, -⟩ := Design.analyze_cells hOutcome hSome
  exact ⟨finding, b, hOutcome, hSome, hStages, hLength.trans hCount, hHolder⟩

/-! ## A core without a cell -/

/-- The sample again, except that both cells of the subsystem are instances of the first core. -/
def doubledDesign : Design :=
  sampleDesign.update "ocla_debug_subsystem" fun m =>
    { m with cells := [⟨"native", "ocla", []⟩, ⟨"bridge", "ocla", []⟩] }

/-- **A design qualifies although one of its cores is nowhere instantiated.** -/
theorem doubledDesign_strays : ∃ finding b, (doubledDesign.analyze {}).outcome = .ok finding ∧
    finding.qualified = 2 ∧ (Analysis.stages {} doubledDesign).result = .ok (some b) ∧
    b.cores.map (fun c => (c.name, (doubledDesign.uses c.name).length)) =
      [("ocla", 2), ("$paramod\\ocla", 0)] ∧
    ¬∀ c ∈ b.cores, doubledDesign.Places b.subsystem c := by
  have hOutcome : (doubledDesign.analyze {}).outcome.toOption.map Finding.qualified = some 2 := by
    decide +kernel
  have hStages : (Analysis.stages {} doubledDesign).result.toOption.map
      (Option.map fun b => b.cores.map fun c => (c.name, (doubledDesign.uses c.name).length)) =
        some (some [("ocla", 2), ("$paramod\\ocla", 0)]) := by
    decide +kernel
  cases hFound : (doubledDesign.analyze {}).outcome with
  | error abort =>
    rw [hFound] at hOutcome
    cases hOutcome
  | ok finding =>
    rw [hFound] at hOutcome
    cases hEnd : (Analysis.stages {} doubledDesign).result with
    | error fault =>
      rw [hEnd] at hStages
      cases hStages
    | ok bench =>
      rw [hEnd] at hStages
      obtain ⟨b, rfl, hCells⟩ := Option.map_eq_some_iff.mp (Option.some.inj hStages)
      refine ⟨finding, b, rfl, Option.some.inj hOutcome, rfl, hCells, fun hPlaces => ?_⟩
      -- the second core is listed with no cell
      have hMem : ("$paramod\\ocla", 0) ∈ b.cores.map
          fun c => (c.name, (doubledDesign.uses c.name).length) := by
        rw [hCells]
        decide
      obtain ⟨c, hc, hEq⟩ := List.mem_map.mp hMem
      obtain ⟨u, hu, -⟩ := hPlaces c hc
      have hNone := (Prod.mk.inj hEq).2
      rw [hu] at hNone
      cases hNone

end ProbeAtlas
