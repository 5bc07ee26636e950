import ProbeAtlas.Netlist.Top
import ProbeAtlas.Proofs.Enrolment
import ProbeAtlas.Proofs.FullyWired
import ProbeAtlas.Proofs.PathPrediction
import ProbeAtlas.Proofs.Recursion

/-!
# ProbeAtlas — which faults an analysis can end with

Every stage has faults of its own, and most of them cannot occur in an analysis, because an earlier stage
has seen to it that they do not: the census leaves cores without signals and a subsystem without a layout,
whose numbers suit its mode; the path leads to a module that the design has; the cross-check gives every
core an interface and every listed probe a width. What remains is flattening, which cannot see beforehand
that a hierarchy is recursive. It is also the only stage that may go on for ever.

`Analysis.stages_result` says how the stages end without their logs and without the faults that cannot
occur.

Main results: `Design.analyze_outcomes` and `Design.analyze_faults`.
-/

namespace ProbeAtlas

-- ---------------------------------------------------------------------------
-- Flattening
-- ---------------------------------------------------------------------------

namespace Design

variable {d : Design}

theorem isInstantiated_iff {type : String} :
    d.isInstantiated type = true ↔ ∃ m ∈ d.modules, ∃ c ∈ m.cells, c.type = type := by
  simp [isInstantiated]

theorem Below.isInstantiated {top m : Module} (hTop : d.topModule? = some top) (h : d.Below m top) :
    d.isInstantiated m.name = true := by
  obtain ⟨parent, hParent, c, hc, hm⟩ := Relation.TransGen.tail'_iff.mp h
  obtain ⟨p, hp⟩ := exists_reaches hParent
  have hType : m.name = c.type := name_of_find? (find?_of_expandable? hm)
  exact isInstantiated_iff.mpr ⟨parent, hp.mem_modules_of_top hTop, c, hc, hType.symm⟩

/-- Why flattening does not finish: the hierarchy is recursive, or the top is copied into itself. -/
def FlatteningImpasse (d : Design) (top : String) (impasse : Impasse Fault) : Prop :=
  (∃ name, impasse = .thrown (.recursive name)) ∨ impasse = .endless top ∧ d.isInstantiated top = true

theorem flatten_impasse {left : Design} {top : Module} {impasse : Impasse Fault}
    (hTop : d.topModule? = some top) (h : d.flatten = (left, some impasse)) :
    d.FlatteningImpasse top.name impasse := by
  rcases flatten_outcomes hTop with ⟨_, name, hOutcome, -⟩ | ⟨_, hOutcome, -, hBelow⟩ | ⟨hOutcome, -⟩ |
    ⟨_, hOutcome, -⟩
  · cases h.symm.trans hOutcome
    exact Or.inl ⟨name, rfl⟩
  · cases h.symm.trans hOutcome
    exact Or.inr ⟨rfl, hBelow.isInstantiated hTop⟩
  · cases h.symm.trans hOutcome
  · cases h.symm.trans hOutcome

-- ---------------------------------------------------------------------------
-- The way to the flat design
-- ---------------------------------------------------------------------------

theorem isInstantiated_of_blackbox {boxed : Design} {name type : String}
    (h : d.blackbox name = .ok boxed) (hBoxed : boxed.isInstantiated type = true) :
    d.isInstantiated type = true := by
  obtain ⟨m, hm, c, hc, hType⟩ := isInstantiated_iff.mp hBoxed
  unfold blackbox at h
  split at h
  · cases h
  · cases h
    obtain ⟨m', hm', rfl⟩ := List.mem_map.mp hm
    split at hc
    · cases hc
    · exact isInstantiated_iff.mpr ⟨m', hm', c, hc, hType⟩

/-- The module at the start of a path can be blackboxed, and the top stays what it is. -/
theorem blackbox_of_path {target : String} {path : UniquePath}
    (h : (d.uniquePath? target).value = some path) :
    ∃ top boxed, d.topModule? = some top ∧ d.blackbox path.instantiator = .ok boxed ∧
      boxed.topModule? = some top := by
  obtain ⟨top, u, v, us, hTop, hAscent, hInstantiator, -⟩ := uniquePath?_ascent h
  have hHolder := hAscent.holder_mem (List.mem_cons_self ..)
  have hFound : (d.find? path.instantiator).isSome = true := by
    rw [find?, List.find?_isSome]
    exact ⟨u.holder, hHolder, by simp [hInstantiator]⟩
  obtain ⟨m, hm⟩ := Option.isSome_iff_exists.mp hFound
  have hBoxed : ∃ boxed, d.blackbox path.instantiator = .ok boxed := by
    unfold blackbox
    rw [hm]
    exact ⟨_, rfl⟩
  obtain ⟨boxed, hBoxed⟩ := hBoxed
  have hNe : top.name ≠ path.instantiator := by
    cases hAscent with
    | climb _ hTop _ =>
      rw [hInstantiator]
      exact Ne.symm hTop
  exact ⟨top, boxed, hTop, hBoxed, topModule?_blackbox hBoxed hTop hNe⟩

theorem topModule?_of_flatten {flat : Design} (h : d.flatten = (flat, none)) :
    ∃ top, flat.topModule? = some top := by
  obtain ⟨top, -, -, -, cells, netnames, hTop, -, rfl⟩ := flatten_elaborates h
  exact ⟨_, topModule?_withContents hTop⟩

end Design

-- ---------------------------------------------------------------------------
-- Wiring and reporting
-- ---------------------------------------------------------------------------

theorem Subsystem.interface_total {s : Subsystem} {i : Nat} (h : i < s.interfaces.length) :
    ∃ itf, s.interface i = .ok itf :=
  ⟨_, interface_eq_ok.mpr (List.getElem?_eq_getElem h)⟩

/-- The subsystem has what wiring and reporting ask it for on behalf of the core. -/
structure Core.Served (c : Core) (s : Subsystem) : Prop where
  bus    : c.isBridge = true → s.bus.isSome = true
  probes : ∀ p ∈ c.probeOrder, p < s.interfaces.length

/-- Wiring cores without signals ends with a verdict. -/
theorem Bench.wire_total {b : Bench} (hBare : ∀ c ∈ b.cores, c.probes = [])
    (hServed : ∀ c ∈ b.cores, c.Served b.subsystem) (top : Module) (instantiator : String)
    (rules : Rules) : ∃ verdict, (b.wire (some top) instantiator rules).result = .ok verdict := by
  have hNone : (b.cores.find? fun c => !c.probes.isEmpty) = none := by
    refine List.find?_eq_none.mpr fun c hc => ?_
    rw [hBare c hc]
    decide
  unfold wire wireAll
  dsimp only
  rw [hNone]
  dsimp only
  split
  · next cell _ =>
    have hSite : (⟨top, some b.subsystem, rules, cell⟩ : Site).subsystem = some b.subsystem := rfl
    obtain ⟨-, verdict, hVerdict, -⟩ := Site.wireCores_exact hSite (fun c hc => (hServed c hc).bus)
      fun c hc => (hServed c hc).probes
    rw [hVerdict]
    exact ⟨_, rfl⟩
  · exact ⟨false, rfl⟩

/-- Wiring leaves the places of the cores as they are. -/
theorem Site.Wires.served {site : Site} {s : Subsystem} {c c' : Core} (h : site.Wires c c')
    (hServed : c.Served s) : c'.Served s := by
  obtain ⟨found, -, rfl⟩ := h
  exact ⟨hServed.bus, hServed.probes⟩

/-- A bench whose subsystem knows all probes can be reported on. -/
theorem Report.ofBench_total (log : Log) {b : Bench} (h : ∀ c ∈ b.cores, c.Served b.subsystem) :
    ∃ report, ofBench log (some b) = .ok report := by
  have hSection : ∀ c ∈ b.cores, ∃ sec, coreSection b.subsystem c = .ok sec := by
    intro c hc
    refine except_bind_total ?_ fun info _ => ⟨_, rfl⟩
    unfold coreProbes
    split
    · exact ⟨none, rfl⟩
    · obtain ⟨infos, hInfos⟩ := mapM_total (f := probeInfo b.subsystem) fun p hp =>
        except_bind_total (Subsystem.interface_total ((h c hc).probes p hp)) fun itf _ => ⟨_, rfl⟩
      exact ⟨some infos, by rw [hInfos]; rfl⟩
  rw [ofBench, build]
  split
  · exact ⟨_, rfl⟩
  · refine except_bind_total ⟨b.subsystem, rfl⟩ fun s hs => ?_
    cases hs
    exact except_bind_total (mapM_total hSection) fun sections _ => ⟨_, rfl⟩

/-- After the cross-check the subsystem has what is asked of it. -/
theorem Bench.Agreement.served {b : Bench} {instantiators : List String} {l : Layout}
    (h : b.Agreement instantiators l) (hShaped : b.subsystem.Shaped) :
    ∀ c ∈ (b.settled l).cores, c.Served (b.settled l).subsystem := by
  refine List.forall_mem_map.mpr fun c hc => ⟨fun hBridge => ?_, fun p hp => ?_⟩
  · exact hShaped.bus_of_bridge hBridge
  · have hSound := (layout_fits h.layout).sound
    obtain ⟨order, hOrder⟩ := Option.isSome_iff_exists.mp (h.owned c hc)
    have hMem : p ∈ order := by
      have hPlaced : p ∈ (l.order[c.index]?).getD [] := hp
      rw [hOrder] at hPlaced
      exact hPlaced
    have hKnown := hSound.known p (Layout.mem_flatten_of_getElem? hOrder hMem)
    have hLast := Subsystem.lastProbe_le (s := b.subsystem)
    show p < b.subsystem.interfaces.length
    rw [hShaped.interfaces]
    omega

-- ---------------------------------------------------------------------------
-- All stages
-- ---------------------------------------------------------------------------

/-- The bench of a census that has some core and exactly one subsystem. -/
def Census.bench? : Census → Option Bench
  | ⟨c :: cs, [s]⟩ => some ⟨s, c :: cs⟩
  | _ => none

theorem Census.bench?_eq_some {census : Census} {b : Bench} : census.bench? = some b ↔
    census.cores = b.cores ∧ b.cores ≠ [] ∧ census.subsystems = [b.subsystem] := by
  constructor
  · intro h
    unfold bench? at h
    split at h
    · cases h
      exact ⟨rfl, by simp, rfl⟩
    · cases h
  · rintro ⟨hCores, hSome, hSubsystems⟩
    obtain ⟨c, cs, hSplit⟩ := List.exists_cons_of_ne_nil hSome
    have hCensus : census = ⟨c :: cs, [b.subsystem]⟩ := by rw [← hSplit, ← hCores, ← hSubsystems]
    rw [hCensus, bench?, ← hSplit]

namespace Analysis

/-- The bench that the census finds. -/
def benchOf (rules : Rules) (d : Design) : Option Bench :=
  (Census.take rules d).result.toOption.bind Census.bench?

/-- A bench as the census leaves it: the numbers suit the mode, and nothing is filled in. -/
structure Fresh (b : Bench) : Prop where
  shaped   : b.subsystem.Shaped
  noLayout : b.subsystem.layout = none
  someCore : b.cores ≠ []
  bare     : ∀ c ∈ b.cores, c.probes = []

theorem fresh_of_benchOf {rules : Rules} {d : Design} {b : Bench} (h : benchOf rules d = some b) :
    Fresh b := by
  unfold benchOf at h
  cases hFlat : d.flattened with
  | true =>
    rw [Census.take_flattened rules hFlat] at h
    cases h
  | false =>
    have hCensus := Census.take_result rules hFlat
    rw [hCensus] at h
    obtain ⟨hCores, hSome, hSubsystems⟩ := Census.bench?_eq_some.mp h
    dsimp only at hCores hSubsystems
    have hs : b.subsystem ∈ d.modules.filterMap (Census.subsystemOf? rules) := by
      rw [hSubsystems]
      exact List.mem_singleton_self _
    obtain ⟨m, -, hm⟩ := List.mem_filterMap.mp hs
    refine ⟨((Census.take_fromTable hCensus).2 _ hs).shaped, ?_, hSome, fun c hc => ?_⟩
    · obtain ⟨t, -, shape, mode, -, -, hShape⟩ :=
        Census.subsystem?_eq_some.mp (Census.subsystemOf?_eq_some.mp hm).2
      exact Subsystem.layout_of_ofShape hShape
    · rw [← hCores] at hc
      have hFound := (Census.perm_enlist _ _).mem_iff.mp hc
      rw [List.append_nil] at hFound
      obtain ⟨m', -, hm'⟩ := List.mem_filterMap.mp hFound
      obtain ⟨t, -, hTable, -⟩ := Census.core?_eq_some.mp (Census.coreOf?_eq_some.mp hm').2
      exact Core.probes_of_ofTable hTable

/-- What becomes of a bench that has been cross-checked. -/
def wiredBench (rules : Rules) (d : Design) (b : Bench) (instantiator : String) :
    Except (Impasse Fault) (Option Bench) :=
  match d.blackbox instantiator with
  | .error fault => .error (.thrown fault)
  | .ok boxed =>
    match boxed.flatten with
    | (_, some impasse) => .error impasse
    | (flat, none) =>
      let step := b.wire flat.topModule? instantiator rules
      match step.result with
      | .error fault => .error (.thrown fault)
      | .ok ok => .ok (if ok then some step.bench else none)

theorem finish_of_checkCut {s : Subsystem} {c : Core}
    (h : (c.checkCut (some s) 3).result = .ok true) : (finish s c).result = .ok true := by
  unfold finish
  rw [Run.result_lift_bind, Run.result_lift_bind, Run.result_bind, h]
  rfl

theorem finishAll_of_checkCut {s : Subsystem} {cores : List Core}
    (h : ∀ c ∈ cores, (c.checkCut (some s) 3).result = .ok true) :
    (finishAll s cores).result = .ok true := by
  induction cores with
  | nil => rfl
  | cons c cs ih =>
    obtain ⟨hFirst, hRest⟩ := List.forall_mem_cons.mp h
    rw [finishAll, Run.result_bind, finish_of_checkCut hFirst]
    dsimp only
    rw [Run.result_bind, ih hRest]
    rfl

/-- After the cross-check the last stage never refuses. -/
theorem onHierarchy_result {b : Bench} {instantiators : List String}
    (hCheck : (b.crossCheck instantiators).result = .ok true) (rules : Rules) {d : Design}
    {target : String} {path : UniquePath} (hPath : (d.uniquePath? target).value = some path) :
    (onHierarchy rules d (b.crossCheck instantiators).bench path.instantiator).result =
      wiredBench rules d (b.crossCheck instantiators).bench path.instantiator := by
  obtain ⟨top, boxed, -, hBoxed, -⟩ := Design.blackbox_of_path hPath
  unfold onHierarchy wiredBench
  dsimp only [Progress.after]
  rw [hBoxed]
  dsimp only
  rcases hFlat : boxed.flatten with ⟨flat, _ | impasse⟩
  · obtain ⟨flatTop, hFlatTop⟩ := Design.topModule?_of_flatten hFlat
    dsimp only
    unfold onFlat
    rw [hFlatTop]
    dsimp only [Progress.after]
    cases hWire : ((b.crossCheck instantiators).bench.wire (some flatTop) path.instantiator
        rules).result with
    | error fault => rfl
    | ok verdict =>
      cases verdict with
      | false => rfl
      | true =>
        have hFinish := finishAll_of_checkCut fun c hc => Bench.checkCut_of_wired hCheck hWire hc 3
        have hSame : ((b.crossCheck instantiators).bench.wire (some flatTop) path.instantiator
            rules).bench.subsystem = (b.crossCheck instantiators).bench.subsystem := rfl
        rw [hSame, hFinish]
  · rfl

/-- The cross-check of a fresh bench ends with a verdict. -/
theorem Fresh.crossCheck_total {b : Bench} (h : Fresh b) (instantiators : List String) :
    ∃ verdict, (b.crossCheck instantiators).result = .ok verdict := by
  obtain ⟨verdict, hVerdict, -⟩ := Bench.crossCheck_answers h.shaped h.noLayout h.someCore
  exact ⟨verdict, hVerdict⟩

theorem onBench_result (rules : Rules) (d : Design) {b : Bench} (h : Fresh b) :
    (onBench rules d b).result =
      match (d.uniquePath? b.subsystem.name).value with
      | none => .ok none
      | some path =>
        if (b.crossCheck (holdersOf d b)).passed then
          wiredBench rules d (b.crossCheck (holdersOf d b)).bench path.instantiator
        else .ok none := by
  have hHolders : (b.cores.mapM fun c => d.holders c.name).value.flatten = holdersOf d b := rfl
  unfold onBench
  dsimp only [Progress.after]
  cases hPath : (d.uniquePath? b.subsystem.name).value with
  | none => rfl
  | some path =>
    dsimp only
    obtain ⟨verdict, hVerdict⟩ := h.crossCheck_total (holdersOf d b)
    rw [Step.passed, hVerdict]
    split
    · next hEmpty =>
      -- without places the number of cores is wrong, so the cross-check would fail as well
      have hNone : holdersOf d b = [] := List.isEmpty_iff.mp hEmpty
      cases verdict with
      | false => rfl
      | true =>
        obtain ⟨l, hAgreement, -⟩ := Bench.crossCheck_passed hVerdict
        have hLength := hAgreement.places
        rw [hNone, List.length_nil] at hLength
        exact absurd (List.eq_nil_of_length_eq_zero hLength) h.someCore
    · rw [hHolders, hVerdict]
      cases verdict with
      | false => rfl
      | true => exact onHierarchy_result hVerdict rules hPath

/-- **How the stages end**, without the logs and the faults that do not occur. -/
theorem stages_result (rules : Rules) (d : Design) :
    (stages rules d).result =
      match benchOf rules d with
      | none => .ok none
      | some b =>
        match (d.uniquePath? b.subsystem.name).value with
        | none => .ok none
        | some path =>
          if (b.crossCheck (holdersOf d b)).passed then
            wiredBench rules d (b.crossCheck (holdersOf d b)).bench path.instantiator
          else .ok none := by
  have hFresh : ∀ b, benchOf rules d = some b → Fresh b := fun b => fresh_of_benchOf
  have hTotal : ∃ census, (Census.take rules d).result = .ok census := by
    cases hFlat : d.flattened with
    | true => exact ⟨_, Census.take_flattened rules hFlat⟩
    | false => exact ⟨_, Census.take_result rules hFlat⟩
  obtain ⟨⟨cores, subsystems⟩, hCensus⟩ := hTotal
  unfold stages benchOf at *
  dsimp only [Progress.after]
  rw [hCensus] at hFresh ⊢
  dsimp only at hFresh ⊢
  rcases cores with _ | ⟨c, cs⟩
  · rfl
  · rcases subsystems with _ | ⟨s, _ | ⟨s', rest⟩⟩
    · rfl
    · exact onBench_result rules d (hFresh _ rfl)
    · rfl

/-- A bench that was cross-checked can be wired wherever a path leads, unless flattening does not finish,
and then reported on. -/
theorem wiredBench_total {b : Bench} (h : Fresh b) {instantiators : List String}
    (hCheck : (b.crossCheck instantiators).result = .ok true) (rules : Rules) {d : Design}
    {target : String} {path : UniquePath} (hPath : (d.uniquePath? target).value = some path) :
    (∃ top impasse, d.topModule? = some top ∧ d.FlatteningImpasse top.name impasse ∧
      wiredBench rules d (b.crossCheck instantiators).bench path.instantiator = .error impasse) ∨
    ∃ wired, wiredBench rules d (b.crossCheck instantiators).bench path.instantiator = .ok wired ∧
      ∀ b', wired = some b' → ∀ c ∈ b'.cores, c.Served b'.subsystem := by
  obtain ⟨l, hAgreement, hBench⟩ := Bench.crossCheck_passed hCheck
  obtain ⟨top, boxed, hTop, hBoxed, hBoxedTop⟩ := Design.blackbox_of_path hPath
  have hServed := hAgreement.served h.shaped
  have hBare : ∀ c ∈ (b.settled l).cores, c.probes = [] := List.forall_mem_map.mpr h.bare
  unfold wiredBench
  rw [hBench, hBoxed]
  dsimp only
  rcases hFlat : boxed.flatten with ⟨flat, _ | impasse⟩
  · right
    obtain ⟨flatTop, hFlatTop⟩ := Design.topModule?_of_flatten hFlat
    obtain ⟨verdict, hVerdict⟩ := Bench.wire_total hBare hServed flatTop path.instantiator rules
    dsimp only
    rw [hFlatTop, hVerdict]
    refine ⟨_, rfl, fun b' hb' => ?_⟩
    cases verdict with
    | false => cases hb'
    | true =>
      cases hb'
      obtain ⟨cell, -, hSubsystem, hWired⟩ := Bench.wire_passed hVerdict
      intro c hc
      obtain ⟨c₀, hc₀, hWires⟩ := exists_of_mem_right hWired hc
      rw [hSubsystem]
      exact hWires.served (hServed c₀ hc₀)
  · left
    refine ⟨top, impasse, hTop, ?_, rfl⟩
    rcases Design.flatten_impasse hBoxedTop hFlat with hRecursive | ⟨hEndless, hLoop⟩
    · exact Or.inl hRecursive
    · exact Or.inr ⟨hEndless, Design.isInstantiated_of_blackbox hBoxed hLoop⟩

/-- **The stages come to no verdict only where flattening does not finish**, and what they end with can be
reported on. -/
theorem stages_total (rules : Rules) (d : Design) :
    (∃ top impasse, d.topModule? = some top ∧ d.FlatteningImpasse top.name impasse ∧
      (stages rules d).result = .error impasse) ∨
    ∃ qualified, (stages rules d).result = .ok qualified ∧
      ∀ b, qualified = some b → ∀ c ∈ b.cores, c.Served b.subsystem := by
  have hRefused : ∀ b : Bench, (none : Option Bench) = some b → ∀ c ∈ b.cores, c.Served b.subsystem :=
    fun b hb => by cases hb
  rw [stages_result]
  cases hFound : benchOf rules d with
  | none => exact Or.inr ⟨none, rfl, hRefused⟩
  | some b =>
    have hFresh := fresh_of_benchOf hFound
    dsimp only
    cases hPath : (d.uniquePath? b.subsystem.name).value with
    | none => exact Or.inr ⟨none, rfl, hRefused⟩
    | some path =>
      obtain ⟨verdict, hVerdict⟩ := hFresh.crossCheck_total (holdersOf d b)
      dsimp only
      rw [Step.passed, hVerdict]
      cases verdict with
      | false => exact Or.inr ⟨none, rfl, hRefused⟩
      | true => exact wiredBench_total hFresh hVerdict rules hPath

end Analysis

/-- **How an analysis ends**: without a top it is aborted, and with one it finds the hierarchy recursive, or
copies the top into itself for ever, or has a finding. -/
theorem Design.analyze_outcomes (d : Design) (rules : Rules) :
    (d.topModule? = none ∧ ∃ report, (d.analyze rules).outcome = .error (.thrown (.noTop report))) ∨
    ∃ top, d.topModule? = some top ∧
      ((∃ name, (d.analyze rules).outcome = .error (.thrown (.fault (.recursive name)))) ∨
        ((d.analyze rules).outcome = .error (.endless top.name) ∧ d.isInstantiated top.name = true) ∨
        ∃ finding, (d.analyze rules).outcome = .ok finding) := by
  unfold analyze
  cases hTop : d.topModule? with
  | none => exact Or.inl ⟨rfl, _, rfl⟩
  | some top =>
    refine Or.inr ⟨top, rfl, ?_⟩
    dsimp only
    rcases Analysis.stages_total rules d with ⟨top', impasse, hTop', hFlattening, hStages⟩ |
      ⟨qualified, hStages, hServed⟩
    · cases hTop.symm.trans hTop'
      rw [hStages]
      rcases hFlattening with ⟨name, rfl⟩ | ⟨rfl, hLoop⟩
      · exact Or.inl ⟨name, rfl⟩
      · exact Or.inr (Or.inl ⟨rfl, hLoop⟩)
    · rw [hStages]
      dsimp only
      have hReport : ∀ log, ∃ report, Report.ofBench log qualified = .ok report := by
        intro log
        cases qualified with
        | none => exact ⟨_, rfl⟩
        | some b => exact Report.ofBench_total log (hServed b rfl)
      obtain ⟨report, hReport⟩ := hReport _
      rw [hReport]
      exact Or.inr (Or.inr ⟨_, rfl⟩)

/-- **An analysis has no finding only if the design has no top or flattening does not finish.** It is aborted
exactly for want of a top module. Any fault that it throws says that the hierarchy is recursive. It goes on
for ever only where the recursion is through the top itself. -/
theorem Design.analyze_faults (d : Design) (rules : Rules) :
    ((∃ report, (d.analyze rules).outcome = .error (.thrown (.noTop report))) ↔ d.topModule? = none) ∧
      (∀ fault, (d.analyze rules).outcome = .error (.thrown (.fault fault)) →
        ∃ name, fault = .recursive name) ∧
      ∀ name, (d.analyze rules).outcome = .error (.endless name) →
        ∃ top, d.topModule? = some top ∧ name = top.name ∧ d.isInstantiated top.name = true := by
  rcases d.analyze_outcomes rules with ⟨hTop, report, hAborted⟩ |
    ⟨top, hTop, ⟨name, hRecursive⟩ | ⟨hEndless, hLoop⟩ | ⟨finding, hFound⟩⟩
  · simp [hTop, hAborted]
  · simp [hTop, hRecursive]
  · simp [hTop, hEndless, hLoop]
  · simp [hTop, hFound]

/-- The sample with one more cell in its top; the module of that cell holds a cell of the given type. -/
def loopedDesign (below : String) : Design :=
  { sampleDesign with
    modules :=
      (sampleDesign.modules.map fun m =>
        if m.name = "top" then { m with cells := m.cells ++ [⟨"extra", "loop", []⟩] } else m) ++
        [{ name := "loop", attributes := [], parameters := [], ports := []
           cells := [⟨"again", below, []⟩], netnames := [], blackbox := false }] }

/-- A module below itself is a fault, and with the top below itself the analysis goes on for ever; without a
top it is aborted. -/
theorem loopedDesign_faults :
    ((loopedDesign "loop").analyze {}).outcome = .error (.thrown (.fault (.recursive "loop"))) ∧
      ((loopedDesign "top").analyze {}).outcome = .error (.endless "top") ∧
      (∃ top, (loopedDesign "top").topModule? = some top ∧
        (loopedDesign "top").isInstantiated top.name = true) ∧
      ∃ report, (({ sampleDesign with top := none } : Design).analyze {}).outcome =
        .error (.thrown (.noTop report)) := by
  have hEndless : ((loopedDesign "top").analyze {}).outcome = .error (.endless "top") := by
    decide +kernel
  refine ⟨by decide +kernel, hEndless, ?_, ?_⟩
  · obtain ⟨top, hTop, -, hLoop⟩ := (Design.analyze_faults (loopedDesign "top") {}).2.2 _ hEndless
    exact ⟨top, hTop, hLoop⟩
  · exact (Design.analyze_faults _ {}).1.mpr rfl

end ProbeAtlas
