import ProbeAtlas.Proofs.CoreCells
import ProbeAtlas.Proofs.Faults
import ProbeAtlas.Proofs.ModuleOrder

/-!
# ProbeAtlas — findings do not depend on the order of a design

Two designs that differ only in the order of their modules and parameters are analysed alike: both have
no finding, for the same reason, or findings that differ in their messages only.

The census of the other design has the same cores and subsystems, but for the order within their tables.
Cores of different indices stand in the same places. Cores that share an index may stand the other way
round, and then neither design passes the cross-check. So what follows the cross-check is done with
benches of one tidy form.

Main result: `Design.analyze_reordered`.
-/

namespace ProbeAtlas

-- ---------------------------------------------------------------------------
-- The census
-- ---------------------------------------------------------------------------

/-- Options have the same image if a value on either side has a partner on the other. -/
theorem map_eq_map_of_partners {α β : Type} {f : α → β} {x y : Option α}
    (h : ∀ a, x = some a → ∃ b, y = some b ∧ f b = f a)
    (h' : ∀ b, y = some b → ∃ a, x = some a ∧ f a = f b) : y.map f = x.map f := by
  cases hx : x with
  | some a =>
    obtain ⟨b, rfl, hb⟩ := h a hx
    exact congrArg some hb
  | none =>
    cases hy : y with
    | none => rfl
    | some b =>
      obtain ⟨a, ha, -⟩ := h' b hy
      rw [hx] at ha
      cases ha

namespace Census

variable (rules : Rules) {m m' : Module}

theorem coreOf?_reordered (h : m.Reordered m') {c : Core} (hc : coreOf? rules m = some c) :
    ∃ c', coreOf? rules m' = some c' ∧ c'.tidy = c.tidy := by
  obtain ⟨hRole, hCore⟩ := coreOf?_eq_some.mp hc
  obtain ⟨t, hTable, hBuilt, hValid⟩ := core?_eq_some.mp hCore
  obtain ⟨t', hTable', hSame⟩ := ParamTable.decode?_perm h.parameters hTable
  have hName : m'.name = m.name := Module.congr_body h.body Module.name fun _ => rfl
  have hTidy := Core.ofTable_tidy hSame m.name
  rw [hBuilt] at hTidy
  obtain ⟨c', hBuilt', hTidy⟩ := except_map_eq_ok.mp hTidy
  have hValid' : c'.tidy.isValid rules.ipType = true := by
    rw [hTidy]
    exact hValid
  refine ⟨c', coreOf?_eq_some.mpr ⟨hName ▸ hRole, core?_eq_some.mpr ⟨t', hTable', ?_, hValid'⟩⟩, hTidy⟩
  rw [hName]
  exact hBuilt'

theorem subsystemOf?_reordered (h : m.Reordered m') {s : Subsystem}
    (hs : subsystemOf? rules m = some s) :
    ∃ s', subsystemOf? rules m' = some s' ∧ s'.tidy = s.tidy := by
  obtain ⟨hRole, hSubsystem⟩ := subsystemOf?_eq_some.mp hs
  obtain ⟨t, hTable, shape, mode, hShape, hMode, hBuilt⟩ := subsystem?_eq_some.mp hSubsystem
  obtain ⟨t', hTable', hSame⟩ := ParamTable.decode?_perm h.parameters hTable
  have hName : m'.name = m.name := Module.congr_body h.body Module.name fun _ => rfl
  have hTidy := Subsystem.ofShape_tidy hSame m.name shape mode
  rw [hBuilt] at hTidy
  obtain ⟨s', hBuilt', hTidy⟩ := except_map_eq_ok.mp hTidy
  have hShape' : Subsystem.Shape.ofTable t' = .ok shape :=
    (Subsystem.Shape.ofTable_same hSame).trans hShape
  refine ⟨s', subsystemOf?_eq_some.mpr ⟨hName ▸ hRole, subsystem?_eq_some.mpr
    ⟨t', hTable', shape, mode, hShape', hMode, ?_⟩⟩, hTidy⟩
  rw [hName]
  exact hBuilt'

/-- The censuses have the same cores and subsystems, but for the order within tables. The cores stand by
their indices in both. -/
structure Alike (census census' : Census) : Prop where
  cores      : (census.cores.map Core.tidy).Perm (census'.cores.map Core.tidy)
  subsystems : (census.subsystems.map Subsystem.tidy).Perm (census'.subsystems.map Subsystem.tidy)
  sorted     : census.cores.Pairwise fun c c' => c.index ≤ c'.index
  sorted'    : census'.cores.Pairwise fun c c' => c.index ≤ c'.index

theorem Alike.symm {census census' : Census} (h : census.Alike census') : census'.Alike census :=
  ⟨h.cores.symm, h.subsystems.symm, h.sorted', h.sorted⟩

/-- **The census of a design in another order is alike.** -/
theorem take_reordered {d d' : Design} (h : d.Reordered d') :
    ∃ census census', (take rules d).result = .ok census ∧ (take rules d').result = .ok census' ∧
      census.Alike census' := by
  have hNil : ([] : List Core).Pairwise fun c c' => c.index ≤ c'.index := List.Pairwise.nil
  cases hFlat : d.flattened with
  | true =>
    refine ⟨_, _, take_flattened rules hFlat, take_flattened rules (h.flattened.trans hFlat), ?_⟩
    exact ⟨.refl _, .refl _, hNil, hNil⟩
  | false =>
    refine ⟨_, _, take_result rules hFlat, take_result rules (h.flattened.trans hFlat), ?_, ?_,
      sorted_enlist hNil, sorted_enlist hNil⟩
    · have hFound := h.perm_filterMap fun m m' hm => map_eq_map_of_partners
        (fun c hc => coreOf?_reordered rules hm hc) fun c hc => coreOf?_reordered rules hm.symm hc
      have hListed : ∀ found, ((enlist [] found).map Core.tidy).Perm (found.map Core.tidy) := by
        intro found
        have hPerm := perm_enlist [] found
        rw [List.append_nil] at hPerm
        exact hPerm.map Core.tidy
      exact ((hListed _).trans hFound).trans (hListed _).symm
    · exact h.perm_filterMap fun m m' hm => map_eq_map_of_partners
        (fun s hs => subsystemOf?_reordered rules hm hs)
        fun s hs => subsystemOf?_reordered rules hm.symm hs

end Census

-- ---------------------------------------------------------------------------
-- The cross-check
-- ---------------------------------------------------------------------------

/-- The benches have the same subsystem and the same cores, but for the order within tables. The cores
stand by their indices in both. -/
structure Bench.Alike (b b' : Bench) : Prop where
  subsystem : b'.subsystem.tidy = b.subsystem.tidy
  cores     : (b.cores.map Core.tidy).Perm (b'.cores.map Core.tidy)
  sorted    : b.cores.Pairwise fun c c' => c.index ≤ c'.index
  sorted'   : b'.cores.Pairwise fun c c' => c.index ≤ c'.index

theorem Census.Alike.bench? {census census' : Census} (h : census.Alike census') {b : Bench}
    (hb : census.bench? = some b) : ∃ b', census'.bench? = some b' ∧ b.Alike b' := by
  obtain ⟨hCores, hSome, hSubsystems⟩ := Census.bench?_eq_some.mp hb
  have hOne := h.subsystems
  rw [hSubsystems, List.map_singleton, List.singleton_perm, eq_comm, List.map_eq_singleton_iff] at hOne
  obtain ⟨s', hs', hTidy⟩ := hOne
  have hSome' : census'.cores ≠ [] := by
    intro hNil
    have hLength := h.cores.length_eq
    rw [hNil, hCores, List.length_map] at hLength
    exact hSome (List.eq_nil_of_length_eq_zero hLength)
  refine ⟨⟨s', census'.cores⟩, Census.bench?_eq_some.mpr ⟨rfl, hSome', hs'⟩, hTidy, ?_, ?_, h.sorted'⟩
  · rw [← hCores]
    exact h.cores
  · rw [← hCores]
    exact h.sorted

namespace Bench

variable {b b' : Bench} {instantiators instantiators' : List String} {l : Layout}

theorem Alike.symm (h : b.Alike b') : b'.Alike b :=
  ⟨h.subsystem.symm, h.cores.symm, h.sorted', h.sorted⟩

/-- Where a bench agrees, no two cores share an index. -/
theorem Agreement.core_unique (h : b.Agreement instantiators l) {c c' : Core} (hc : c ∈ b.cores)
    (hc' : c' ∈ b.cores) (hIndex : c.index = c'.index) : c = c' := by
  obtain ⟨k, hk⟩ := List.mem_iff_getElem?.mp hc
  obtain ⟨k', hk'⟩ := List.mem_iff_getElem?.mp hc'
  have hSame : k = k' := by rw [← h.index k c hk, hIndex, h.index k' c' hk']
  rw [hSame, hk'] at hk
  exact (Option.some.inj hk).symm

/-- **Where a bench agrees, a bench like it has the same tidy form, and agrees as well.** -/
theorem Alike.agreement (h : b.Alike b') (hPlaces : instantiators.Perm instantiators')
    (hAgree : b.Agreement instantiators l) : b'.tidy = b.tidy ∧ b'.Agreement instantiators' l := by
  have hTidy := (agreement_tidy b l).mpr hAgree
  have hSorted : ∀ {cores : List Core}, (cores.Pairwise fun c c' => c.index ≤ c'.index) →
      (cores.map Core.tidy).Pairwise fun c c' => c.index ≤ c'.index := fun hs => List.pairwise_map.mpr hs
  have hCores : b.cores.map Core.tidy = b'.cores.map Core.tidy := by
    refine h.cores.eq_of_pairwise (fun c c' hc hc' hLe hGe => ?_) (hSorted h.sorted) (hSorted h.sorted')
    exact hTidy.core_unique hc (h.cores.mem_iff.mpr hc') (Nat.le_antisymm hLe hGe)
  have hSame : b'.tidy = b.tidy := by
    unfold tidy
    rw [h.subsystem, hCores]
  have hMoved : b'.Agreement instantiators l := (agreement_tidy b' l).mp (hSame ▸ hTidy)
  refine ⟨hSame, { hMoved with places := ?_, holder := fun name hName => ?_ }⟩
  · rw [hMoved.places, hPlaces.length_eq]
  · exact hMoved.holder name (hPlaces.mem_iff.mpr hName)

theorem Alike.holders_perm {d d' : Design} (h : b.Alike b') (hDesign : d.Reordered d') :
    (Analysis.holdersOf d b).Perm (Analysis.holdersOf d' b') := by
  have hByName : ∀ (e : Design) (x : Bench), Analysis.holdersOf e x =
      (x.cores.map Core.name).flatMap fun name => (e.sites name).map Prod.fst := by
    intro e x
    simp only [Analysis.holdersOf_eq, Design.sites, List.flatMap_map, List.map_map]
    rfl
  have hNames : (b.cores.map Core.name).Perm (b'.cores.map Core.name) := by
    have hMapped := h.cores.map Core.name
    rw [List.map_map, List.map_map] at hMapped
    exact hMapped
  rw [hByName, hByName]
  refine (hNames.flatMap_right _).trans (List.Perm.flatMap_left _ fun name _ => ?_)
  exact (hDesign.sites_perm name).map Prod.fst

end Bench

namespace Analysis

variable {d d' : Design} {b b' : Bench} {instantiators instantiators' : List String}

/-- A fresh bench that agrees in all points passes the cross-check, which settles it. -/
theorem Fresh.crossCheck_settles (h : Fresh b) {l : Layout} (hAgree : b.Agreement instantiators l) :
    (b.crossCheck instantiators).passed = true ∧ (b.crossCheck instantiators).bench = b.settled l := by
  obtain ⟨verdict, hVerdict, hAnswer⟩ := Bench.crossCheck_answers h.shaped h.noLayout h.someCore
  rw [hAnswer ⟨l, hAgree⟩] at hVerdict
  obtain ⟨l', hAgree', hBench⟩ := Bench.crossCheck_passed hVerdict
  have hLayout : l' = l := by
    have hSame := hAgree'.layout.symm.trans hAgree.layout
    exact Option.some.inj (Except.ok.inj hSame)
  rw [Step.passed, hVerdict, hBench, hLayout]
  exact ⟨rfl, rfl⟩

theorem exists_agreement (h : (b.crossCheck instantiators).passed = true) :
    ∃ l, b.Agreement instantiators l := by
  unfold Step.passed at h
  split at h
  · next verdict hVerdict =>
    rw [h] at hVerdict
    obtain ⟨l, hAgree, -⟩ := Bench.crossCheck_passed hVerdict
    exact ⟨l, hAgree⟩
  · cases h

/-- **Benches that are alike get the same verdict from the cross-check.** Where it passes, it leaves
benches of one tidy form. -/
theorem crossCheck_alike (h : b.Alike b') (hFresh : Fresh b) (hFresh' : Fresh b')
    (hPlaces : instantiators.Perm instantiators') :
    (b'.crossCheck instantiators').passed = (b.crossCheck instantiators).passed ∧
      ((b.crossCheck instantiators).passed = true →
        (b'.crossCheck instantiators').bench.tidy = (b.crossCheck instantiators).bench.tidy) := by
  refine ⟨Bool.eq_iff_iff.mpr ⟨fun hPassed' => ?_, fun hPassed => ?_⟩, fun hPassed => ?_⟩
  · obtain ⟨l, hAgree'⟩ := exists_agreement hPassed'
    have hAgree := (h.symm.agreement hPlaces.symm hAgree').2
    exact (hFresh.crossCheck_settles hAgree).1
  · obtain ⟨l, hAgree⟩ := exists_agreement hPassed
    have hAgree' := (h.agreement hPlaces hAgree).2
    exact (hFresh'.crossCheck_settles hAgree').1
  · obtain ⟨l, hAgree⟩ := exists_agreement hPassed
    obtain ⟨hTidy, hAgree'⟩ := h.agreement hPlaces hAgree
    rw [(hFresh.crossCheck_settles hAgree).2, (hFresh'.crossCheck_settles hAgree').2]
    rw [← Bench.settled_tidy, ← Bench.settled_tidy, hTidy]

-- ---------------------------------------------------------------------------
-- All stages
-- ---------------------------------------------------------------------------

/-- Benches of one tidy form are wired alike. -/
theorem wiredBench_tidy (h : d.SameBodies d') (hBench : b'.tidy = b.tidy) (rules : Rules)
    (instantiator : String) : (wiredBench rules d' b' instantiator).map (Option.map Bench.tidy) =
      (wiredBench rules d b instantiator).map (Option.map Bench.tidy) := by
  unfold wiredBench
  rcases h.blackbox instantiator with ⟨fault, hBox, hBox'⟩ | ⟨boxed, boxed', hBox, hBox', hBoxed⟩
  · rw [hBox, hBox']
  · rw [hBox, hBox']
    dsimp only
    obtain ⟨hOutcome, hFlat⟩ := hBoxed.flatten
    rcases hLeft : boxed.flatten with ⟨flat, outcome⟩
    rcases hLeft' : boxed'.flatten with ⟨flat', outcome'⟩
    rw [hLeft, hLeft'] at hOutcome hFlat
    dsimp only at hOutcome hFlat ⊢
    rw [hOutcome]
    cases outcome with
    | some impasse => rfl
    | none =>
      obtain ⟨hResult, hWired⟩ := b.wire_tidy flat.topModule? instantiator rules
      obtain ⟨hResult', hWired'⟩ := b'.wire_tidy flat'.topModule? instantiator rules
      rw [hBench, hFlat.topModule?] at hResult' hWired'
      have hSame := hWired'.symm.trans hWired
      dsimp only
      rw [← hResult', hResult]
      cases (b.wire flat.topModule? instantiator rules).result with
      | error fault => rfl
      | ok verdict =>
        cases verdict with
        | false => rfl
        | true => exact congrArg (fun x => Except.ok (some x)) hSame

/-- **The stages end alike**: in the same impasse, with no bench, or with benches of one tidy form. -/
theorem stages_reordered (h : d.Reordered d') (hNames : d.DistinctNames) (rules : Rules) :
    (stages rules d').result.map (Option.map Bench.tidy) =
      (stages rules d).result.map (Option.map Bench.tidy) := by
  obtain ⟨census, census', hCensus, hCensus', hAlike⟩ := Census.take_reordered rules h
  have hFound : benchOf rules d = census.bench? := by rw [benchOf, hCensus]; rfl
  have hFound' : benchOf rules d' = census'.bench? := by rw [benchOf, hCensus']; rfl
  rw [stages_result, stages_result]
  cases hb : benchOf rules d with
  | none =>
    have hNone : benchOf rules d' = none := by
      refine Option.eq_none_iff_forall_ne_some.mpr fun b' hb' => ?_
      obtain ⟨b, hb', -⟩ := hAlike.symm.bench? (hFound' ▸ hb')
      rw [hFound, hb'] at hb
      cases hb
    rw [hNone]
  | some b =>
    obtain ⟨b', hb', hBenches⟩ := hAlike.bench? (hFound ▸ hb)
    rw [← hFound'] at hb'
    have hName : b'.subsystem.name = b.subsystem.name :=
      show b'.subsystem.tidy.name = b.subsystem.tidy.name by rw [hBenches.subsystem]
    rw [hb']
    dsimp only
    rw [hName, h.uniquePath?_value hNames]
    cases (d.uniquePath? b.subsystem.name).value with
    | none => rfl
    | some path =>
      obtain ⟨hVerdict, hTidy⟩ := crossCheck_alike hBenches (fresh_of_benchOf hb) (fresh_of_benchOf hb')
        (hBenches.holders_perm h)
      dsimp only
      rw [hVerdict]
      by_cases hPassed : (b.crossCheck (holdersOf d b)).passed = true
      · rw [if_pos hPassed, if_pos hPassed]
        exact wiredBench_tidy (h.sameBodies hNames) (hTidy hPassed) rules path.instantiator
      · rw [if_neg hPassed, if_neg hPassed]

end Analysis

-- ---------------------------------------------------------------------------
-- Findings
-- ---------------------------------------------------------------------------

/-- What a finding says apart from the messages: how many cores qualified, and the sections about them and
their subsystem. -/
def Finding.verdict (f : Finding) : Nat × Option QualifiedSection :=
  (f.qualified, f.report.qualified)

/-- The sections of a report do not depend on the messages. -/
theorem Report.sections_ofBench (log log' : Log) (found : Option Bench) :
    (ofBench log found).map Report.qualified = (ofBench log' found).map Report.qualified := by
  cases found with
  | none => rfl
  | some b =>
    rw [ofBench, ofBench, build, build]
    split
    · rfl
    · show (b.cores.mapM (coreSection b.subsystem) >>= _ : Except Fault Report).map _ =
        (b.cores.mapM (coreSection b.subsystem) >>= _ : Except Fault Report).map _
      cases b.cores.mapM (coreSection b.subsystem) <;> rfl

/-- The verdict on what the stages end with. -/
def verdictOn (found : Option Bench) : Except (Impasse Fault) (Nat × Option QualifiedSection) :=
  (((Report.ofBench [] found).map Report.qualified).map fun sections =>
    ((found.map fun b => b.cores.length).getD 0, sections)).mapError .thrown

theorem verdictOn_tidy (found : Option Bench) : verdictOn (found.map Bench.tidy) = verdictOn found := by
  have hCount : ((found.map Bench.tidy).map fun b => b.cores.length) =
      found.map fun b => b.cores.length := by
    rw [Option.map_map]
    refine Option.map_congr fun b _ => ?_
    exact List.length_map ..
  unfold verdictOn
  rw [Report.ofBench_tidy, hCount]

namespace Design

/-- The verdict of an analysis is that on what its stages end with. -/
theorem analyze_verdict {d : Design} {top : Module} (hTop : d.topModule? = some top) (rules : Rules) :
    (d.analyze rules).outcome.map Finding.verdict =
      ((Analysis.stages rules d).result.bind verdictOn).mapError (Impasse.map Abort.fault) := by
  unfold analyze
  rw [hTop]
  dsimp only
  cases (Analysis.stages rules d).result with
  | error impasse => rfl
  | ok found =>
    dsimp only [Except.bind, verdictOn]
    generalize ([⟨0, "Start of OCLA Analysis"⟩] ++ (Analysis.stages rules d).log ++
      [⟨0, "End of OCLA Analysis"⟩] : Log) = log
    rw [Report.sections_ofBench [] log]
    cases Report.ofBench log found <;> rfl

/-- **An analysis does not depend on the order of the design.** Where designs differ only in the order of
their modules and of each module's parameters, the analyses throw the same, or both of them go on for ever,
or their findings differ in the messages only. Every design that is read has distinct names
(`Design.parse_distinctNames`). -/
theorem analyze_reordered {d d' : Design} (hNames : d.DistinctNames) (h : d.Reordered d')
    (rules : Rules) :
    (d'.analyze rules).outcome.map Finding.verdict = (d.analyze rules).outcome.map Finding.verdict := by
  have hTidy : ∀ r : Except (Impasse Fault) (Option Bench),
      (r.map (Option.map Bench.tidy)).bind verdictOn = r.bind verdictOn := by
    intro r
    cases r with
    | error impasse => rfl
    | ok found => exact verdictOn_tidy found
  rcases Module.found_cases (h.sameBodies hNames).topModule? with
    ⟨hTop, hTop'⟩ | ⟨top, top', hTop, hTop', -⟩
  · unfold analyze
    rw [hTop, hTop']
  · rw [analyze_verdict hTop, analyze_verdict hTop', ← hTidy, Analysis.stages_reordered h hNames, hTidy]

/-- The design back to front: its modules, and the parameters of each module. -/
def reversed (d : Design) : Design :=
  { d with modules := d.modules.reverse.map fun m => { m with parameters := m.parameters.reverse } }

theorem reordered_reversed (d : Design) : d.Reordered d.reversed := by
  refine ⟨rfl, rfl, d.modules.reverse, (List.reverse_perm _).symm, ?_⟩
  refine List.forall₂_map_right_iff.mpr (List.forall₂_same.mpr fun m _ => ?_)
  exact ⟨(List.reverse_perm _).symm, rfl⟩

end Design

/-- Both cores of the sample qualify also if it is read back to front. -/
theorem sampleDesign_reversed : sampleDesign.DistinctNames ∧
    sampleDesign.Reordered sampleDesign.reversed ∧
      ∃ q, (sampleDesign.reversed.analyze {}).outcome.map Finding.verdict = .ok (2, some q) := by
  have hNames : sampleDesign.DistinctNames := by
    unfold Design.DistinctNames
    decide
  obtain ⟨finding, q, hOutcome, hCount, hReport, -⟩ := sampleDesign_qualifies
  refine ⟨hNames, sampleDesign.reordered_reversed, q, ?_⟩
  rw [Design.analyze_reordered hNames sampleDesign.reordered_reversed, hOutcome]
  show Except.ok (finding.qualified, finding.report.qualified) = _
  rw [hCount, hReport]

end ProbeAtlas
