import ProbeAtlas.Analysis
import ProbeAtlas.Proofs.Agreement
import ProbeAtlas.Proofs.Census
import ProbeAtlas.Proofs.Wiring

/-!
# ProbeAtlas — what a design has passed when it qualifies

A design qualifies when all stages of the analysis pass in turn. `Analysis.Qualified` collects what
the stages establish about the bench that is reported, from the census to the last look at the
signals; `Analysis.stages_qualified` reads it off a run. Statements about reports start from there.
-/

namespace ProbeAtlas

/-! ## The last stage -/

theorem Core.totalWidth_of_checkCut {c : Core} {s : Option Subsystem} {level : Int}
    (h : (c.checkCut s level).result = .ok true) :
    Fragment.totalWidth c.probes = c.probeCount := by
  unfold checkCut at h
  dsimp only at h
  split at h
  · cases h
  · next hTotal => exact not_not.mp hTotal

namespace Analysis

theorem finish_passed {s : Subsystem} {c : Core} (h : (finish s c).result = .ok true) :
    Fragment.totalWidth c.probes = c.probeCount := by
  unfold finish at h
  rw [Run.result_lift_bind, Run.result_lift_bind] at h
  obtain ⟨ok, hCut, h⟩ := Run.result_bind_eq_ok.mp h
  cases ok with
  | false => cases h
  | true => exact Core.totalWidth_of_checkCut hCut

theorem finishAll_passed {s : Subsystem} {cores : List Core}
    (h : (finishAll s cores).result = .ok true) :
    ∀ c ∈ cores, Fragment.totalWidth c.probes = c.probeCount := by
  induction cores with
  | nil => simp
  | cons c cs ih =>
    rw [finishAll] at h
    obtain ⟨ok, hFirst, h⟩ := Run.result_bind_eq_ok.mp h
    obtain ⟨okRest, hRest, h⟩ := Run.result_bind_eq_ok.mp h
    obtain ⟨rfl, rfl⟩ := Bool.and_eq_true_iff.mp (Except.ok.inj h)
    exact List.forall_mem_cons.mpr ⟨finish_passed hFirst, ih hRest⟩

/-! ## All stages -/

/-- The cell to which the probes of a bench are wired, as the last stages see it. -/
structure Target where
  path : UniquePath
  top  : Module
  cell : Cell

/-- Where the probes of a bench are looked up. -/
def Target.site (t : Target) (rules : Rules) (b : Bench) : Site :=
  ⟨t.top, some b.subsystem, rules, t.cell⟩

/-- The names of the modules that hold the cores of a bench, one for every cell. -/
def holdersOf (d : Design) (b : Bench) : List String :=
  (b.cores.mapM fun c => d.holders c.name).value.flatten

/-- What the stages have established about the bench `b` that they end with. Before the cross-check it
was the bench `found`, whose layout turned out to be `l`. -/
structure Qualified (rules : Rules) (d : Design) (b found : Bench) (l : Layout) (t : Target) :
    Prop where
  cores      : ∀ c ∈ found.cores, c.FromTable
  subsystem  : found.subsystem.FromTable
  agreement  : found.Agreement (holdersOf d found) l
  settled    : b.subsystem = (found.settled l).subsystem
  path       : (d.uniquePath? found.subsystem.name).value = some t.path
  flattened  : ∃ boxed, d.blackbox t.path.instantiator = .ok boxed ∧
                 boxed.flatten = ((stages rules d).design, none)
  top        : (stages rules d).design.topModule? = some t.top
  cell       : (t.top.cells.filter fun c => c.type == t.path.instantiator) = [t.cell]
  wired      : List.Forall₂ (t.site rules b).Wires (found.settled l).cores b.cores
  totalWidth : ∀ c ∈ b.cores, Fragment.totalWidth c.probes = c.probeCount

theorem onFlat_qualified {rules : Rules} {d : Design} {b b' : Bench} {instantiator : String}
    (h : (onFlat rules d b instantiator).result = .ok (some b')) :
    (onFlat rules d b instantiator).design = d ∧ ∃ top cell, d.topModule? = some top ∧
      (top.cells.filter fun c => c.type == instantiator) = [cell] ∧ b'.subsystem = b.subsystem ∧
      List.Forall₂ (Site.Wires ⟨top, some b.subsystem, rules, cell⟩) b.cores b'.cores ∧
      ∀ c ∈ b'.cores, Fragment.totalWidth c.probes = c.probeCount := by
  unfold onFlat at h ⊢
  cases hTop : d.topModule? with
  | none =>
    rw [hTop] at h
    cases h
  | some top =>
    rw [hTop] at h
    dsimp only [Progress.after] at h ⊢
    split at h
    · cases h
    · cases h
    · next hWire =>
      split at h
      · cases h
      · next ok hFinish =>
        cases ok with
        | false => cases h
        | true =>
          cases h
          obtain ⟨cell, hCell, hSubsystem, hWired⟩ := Bench.wire_passed hWire
          exact ⟨rfl, top, cell, rfl, hCell, hSubsystem, hWired, finishAll_passed hFinish⟩

theorem onHierarchy_flattened {rules : Rules} {d : Design} {b b' : Bench} {instantiator : String}
    (h : (onHierarchy rules d b instantiator).result = .ok (some b')) :
    ∃ boxed flat, d.blackbox instantiator = .ok boxed ∧ boxed.flatten = (flat, none) ∧
      (onHierarchy rules d b instantiator).design = (onFlat rules flat b instantiator).design ∧
      (onFlat rules flat b instantiator).result = .ok (some b') := by
  unfold onHierarchy at h ⊢
  dsimp only [Progress.after] at h ⊢
  split at h
  · cases h
  · next boxed hBoxed =>
    split at h
    · cases h
    · next flat hFlat => exact ⟨boxed, flat, hBoxed, hFlat, rfl, h⟩

theorem onBench_checked {rules : Rules} {d : Design} {b b' : Bench}
    (h : (onBench rules d b).result = .ok (some b')) :
    ∃ path, (d.uniquePath? b.subsystem.name).value = some path ∧
      (b.crossCheck (holdersOf d b)).result = .ok true ∧
      (onBench rules d b).design =
        (onHierarchy rules d (b.crossCheck (holdersOf d b)).bench path.instantiator).design ∧
      (onHierarchy rules d (b.crossCheck (holdersOf d b)).bench path.instantiator).result =
        .ok (some b') := by
  unfold onBench at h ⊢
  dsimp only [Progress.after] at h ⊢
  split at h
  · cases h
  · next path hPath =>
    split at h
    · cases h
    · next hSome =>
      rw [if_neg hSome]
      split at h
      · cases h
      · cases h
      · next hCheck => exact ⟨path, hPath, hCheck, rfl, h⟩

/-- **A run of the stages that ends with a bench has established all of `Qualified`.** -/
theorem stages_qualified {rules : Rules} {d : Design} {b : Bench}
    (h : (stages rules d).result = .ok (some b)) :
    ∃ found l t, Qualified rules d b found l t := by
  have hStages : ∃ found : Bench, (∀ c ∈ found.cores, c.FromTable) ∧ found.subsystem.FromTable ∧
      (stages rules d).design = (onBench rules d found).design ∧
      (onBench rules d found).result = .ok (some b) := by
    unfold stages at h ⊢
    dsimp only [Progress.after] at h ⊢
    split at h
    · cases h
    · next census hCensus =>
      obtain ⟨hCores, hSubsystems⟩ := Census.take_fromTable hCensus
      split at h
      · next first rest subsystem hFound hOne =>
        refine ⟨⟨subsystem, census.cores⟩, hCores, ?_, rfl, h⟩
        exact hSubsystems subsystem (hOne ▸ List.mem_singleton_self _)
      · cases h
  obtain ⟨found, hCores, hSubsystem, hDesign, hBench⟩ := hStages
  obtain ⟨path, hPath, hCheck, hDesign', hHierarchy⟩ := onBench_checked hBench
  obtain ⟨l, hAgreement, hSettled⟩ := Bench.crossCheck_passed hCheck
  rw [hSettled] at hDesign' hHierarchy
  obtain ⟨boxed, flat, hBoxed, hFlat, hDesign'', hLast⟩ := onHierarchy_flattened hHierarchy
  obtain ⟨hSame, top, cell, hTop, hCell, hSub, hWired, hTotal⟩ := onFlat_qualified hLast
  have hAll : (stages rules d).design = flat := by rw [hDesign, hDesign', hDesign'', hSame]
  refine ⟨found, l, ⟨path, top, cell⟩, hCores, hSubsystem, hAgreement, hSub, hPath,
    ⟨boxed, hBoxed, hAll ▸ hFlat⟩, hAll ▸ hTop, hCell, ?_, hTotal⟩
  rw [Target.site, hSub]
  exact hWired

end Analysis

end ProbeAtlas
