import Mathlib.Data.List.Sort
import ProbeAtlas.Proofs.Agreement
import ProbeAtlas.Proofs.Enrolment

/-!
# ProbeAtlas — the order of the cores in a census

A census puts each core that it builds before the first one of greater index. Modules that are no cores, and
candidates that do not qualify, may stand anywhere between. Two facts carry over from one insertion to all
of them: the cores stand by their indices, and among those of one index the new one is the last. The first is
needed for the second, since an insertion goes as far as the first greater index and no further.

Cores that stand by their indices pass the check of the sequence iff their indices are the first numbers, in
whatever order the modules came: two sorted lists of the same numbers are the same list.

Main results:

* `Census.filter_enlist` — cores of equal index keep the order in which they came.
* `Bench.checkIndexSequence_iff_perm` — sorted cores are in sequence iff their indices are the first numbers in
  some order.
* `Census.take_ordered` — the census of a design.
-/

namespace ProbeAtlas

/-- The core that is built from a module. The module has the name of a core, its parameters fill the table of a
core, and the core that the table describes is accepted. -/
def Rules.builtCore? (rules : Rules) (m : Module) : Option Core :=
  if namesModule rules.coreModule m.name then
    (ParamTable.decode? Slot.coreSlots m.parameters).value.bind fun table =>
      (Core.build m.name table rules.ipType).toOption.bind Logged.value
  else none

namespace Census

/-- What the census makes of a module is the core built from it. -/
theorem coreOf?_eq_builtCore? (rules : Rules) (m : Module) : coreOf? rules m = rules.builtCore? m := by
  unfold coreOf? Rules.builtCore? Rules.role?
  by_cases hName : namesModule rules.coreModule m.name = true
  · rw [if_pos hName, if_pos hName, if_pos rfl]
    unfold core?
    rw [Run.result_lift_bind]
    cases (ParamTable.decode? Slot.coreSlots m.parameters).value with
    | none => rfl
    | some table =>
      show ((Run.ofExcept (Core.build m.name table rules.ipType) >>= Run.ofLogged).result).toOption.join = _
      rw [Run.result_bind, Run.result_ofExcept, Option.bind_some]
      cases Core.build m.name table rules.ipType with
      | error fault => rfl
      | ok built => rfl
  · rw [if_neg hName, if_neg hName]
    split <;> simp

-- ---------------------------------------------------------------------------
-- Cores of equal index
-- ---------------------------------------------------------------------------

/-- Among the cores of an index, a core is inserted as the last one. -/
theorem filter_insertCore {core : Core} {cores : List Core}
    (h : cores.Pairwise fun c c' => c.index ≤ c'.index) (i : Nat) :
    (insertCore core cores).filter (fun c => c.index = i) =
      (cores ++ [core]).filter fun c => c.index = i := by
  induction cores with
  | nil => rfl
  | cons c cs ih =>
    obtain ⟨hFirst, hRest⟩ := List.pairwise_cons.mp h
    rw [insertCore]
    split
    · next hLess =>
      -- all that stand behind the new core have a greater index, so it is the only one of its own
      by_cases hIndex : core.index = i
      · have hNone : (c :: cs).filter (fun c => c.index = i) = [] := by
          rw [List.filter_eq_nil_iff]
          intro c' hc'
          have hLe : c.index ≤ c'.index := by
            rcases List.mem_cons.mp hc' with rfl | hc'
            · exact Nat.le_refl _
            · exact hFirst c' hc'
          rw [decide_eq_true_eq]
          omega
        rw [List.filter_append, List.filter_cons, hNone]
        simp [hIndex]
      · rw [List.filter_append, List.filter_cons]
        simp [hIndex]
    · rw [List.cons_append, List.filter_cons, List.filter_cons, ih hRest]

/-- **Cores of equal index keep the order in which they came.** -/
theorem filter_enlist {cores : List Core} (h : cores.Pairwise fun c c' => c.index ≤ c'.index)
    (found : List Core) (i : Nat) :
    (enlist cores found).filter (fun c => c.index = i) =
      (cores ++ found).filter fun c => c.index = i := by
  induction found generalizing cores with
  | nil => rw [List.append_nil]; rfl
  | cons c rest ih =>
    calc (enlist cores (c :: rest)).filter (fun c => c.index = i)
        = (insertCore c cores ++ rest).filter (fun c => c.index = i) := ih (sorted_insertCore h)
      _ = ((cores ++ [c]) ++ rest).filter (fun c => c.index = i) := by
          rw [List.filter_append, filter_insertCore h, ← List.filter_append]
      _ = (cores ++ c :: rest).filter (fun c => c.index = i) := by
          rw [List.append_assoc, List.singleton_append]

end Census

-- ---------------------------------------------------------------------------
-- The sequence of the indices
-- ---------------------------------------------------------------------------

namespace Bench

/-- The check compares the indices with the first numbers, one by one. -/
theorem checkIndexSequence_iff_range {b : Bench} :
    b.checkIndexSequence.value = true ↔ b.cores.map Core.index = List.range b.cores.length := by
  rw [checkIndexSequence_value]
  constructor
  · intro h
    refine List.ext_getElem (by simp) fun k hk hk' => ?_
    rw [List.getElem_map, List.getElem_range]
    exact h k _ (List.getElem?_eq_getElem _)
  · intro h k c hk
    obtain ⟨hLt, rfl⟩ := List.getElem?_eq_some_iff.mp hk
    have hAt : (b.cores.map Core.index)[k]? = (List.range b.cores.length)[k]? := by rw [h]
    rw [List.getElem?_map, hk, List.getElem?_range hLt] at hAt
    exact Option.some.inj hAt

/-- **Sorted cores are in sequence iff their indices are the first numbers in some order.** -/
theorem checkIndexSequence_iff_perm {b : Bench} (h : b.cores.Pairwise fun c c' => c.index ≤ c'.index) :
    b.checkIndexSequence.value = true ↔ (b.cores.map Core.index).Perm (List.range b.cores.length) := by
  rw [checkIndexSequence_iff_range]
  constructor
  · intro hRange
    rw [hRange]
  · intro hPerm
    have hSorted : (b.cores.map Core.index).Pairwise (· ≤ ·) := List.pairwise_map.mpr h
    exact hPerm.eq_of_pairwise' hSorted List.pairwise_le_range

end Bench

-- ---------------------------------------------------------------------------
-- The census of a design
-- ---------------------------------------------------------------------------

/-- **The cores of a census stand by their indices, and those of equal index in the order of the design.** They
are the cores built from the modules, none lost and none added. They pass the check of the sequence iff their
indices are the numbers below their count, in whatever order the design has them. -/
theorem Census.take_ordered (rules : Rules) {d : Design} (h : d.flattened = false) :
    ∃ census, (take rules d).result = .ok census ∧
      census.cores.Perm (d.modules.filterMap rules.builtCore?) ∧
      (census.cores.Pairwise fun c c' => c.index ≤ c'.index) ∧
      (∀ i, census.cores.filter (fun c => c.index = i) =
        (d.modules.filterMap rules.builtCore?).filter fun c => c.index = i) ∧
      ∀ s : Subsystem, (Bench.mk s census.cores).checkIndexSequence.value = true ↔
        (census.cores.map Core.index).Perm (List.range census.cores.length) := by
  have hBuilt : coreOf? rules = rules.builtCore? := funext (coreOf?_eq_builtCore? rules)
  have hSorted : (enlist [] (d.modules.filterMap rules.builtCore?)).Pairwise
      fun c c' => c.index ≤ c'.index := sorted_enlist .nil
  refine ⟨_, take_result rules h, ?_, ?_, ?_, ?_⟩
  · rw [hBuilt]
    simpa using perm_enlist [] (d.modules.filterMap rules.builtCore?)
  · rw [hBuilt]
    exact hSorted
  · intro i
    rw [hBuilt]
    exact filter_enlist .nil _ i
  · intro s
    rw [hBuilt]
    exact Bench.checkIndexSequence_iff_perm hSorted

/-! ## Cores out of order -/

/-- A module with the name and the parameters of a core. -/
private def candidateModule (name index memDepth : String) : Module :=
  { name := name ++ "\\ocla", attributes := []
    parameters :=
      [("IP_TYPE", "\"OCLA\""), ("IP_VERSION", "1"), ("IP_ID", "7"), ("AXI_ADDR_WIDTH", "32"),
        ("AXI_DATA_WIDTH", "32"), ("MEM_DEPTH", memDepth), ("NO_OF_PROBES", "4"),
        ("NO_OF_TRIGGER_INPUTS", "1"), ("INDEX", index)]
    ports := [], cells := [], netnames := [], blackbox := false }

/-- Three cores, a module of another kind, and a candidate without memory between them. -/
def scatteredDesign (index : String) : Design :=
  { modules :=
      [candidateModule "first" "1" "64", candidateModule "second" "0" "64", candidateModule "bare" "0" "0",
        ⟨"top", [], [], [], [], [], false⟩, candidateModule "third" index "64"]
    top := some "top"
    flattened := false }

/-- The second core comes before the first one, and the third one, of the same index as the first, behind it. -/
theorem scatteredDesign_ordered : (scatteredDesign "1").flattened = false ∧
    ∃ census, (Census.take {} (scatteredDesign "1")).result = .ok census ∧
      census.cores.map Core.name = ["second\\ocla", "first\\ocla", "third\\ocla"] ∧
      census.cores.Perm ((scatteredDesign "1").modules.filterMap (Rules.builtCore? {})) ∧
      census.cores.filter (fun c => c.index = 1) =
        ((scatteredDesign "1").modules.filterMap (Rules.builtCore? {})).filter (fun c => c.index = 1) ∧
      ∀ s : Subsystem, ¬(Bench.mk s census.cores).checkIndexSequence.value = true := by
  obtain ⟨census, hTake, hPerm, -, hStable, hSequence⟩ :=
    Census.take_ordered {} (d := scatteredDesign "1") rfl
  have hCores : (Census.take {} (scatteredDesign "1")).result.toOption.map
      (fun census => (census.cores.map Core.name, census.cores.map Core.index)) =
        some (["second\\ocla", "first\\ocla", "third\\ocla"], [0, 1, 1]) := by
    decide +kernel
  rw [hTake] at hCores
  obtain ⟨hNames, hIndices⟩ := Prod.mk.inj (Option.some.inj hCores)
  refine ⟨rfl, census, hTake, hNames, hPerm, hStable 1, fun s => ?_⟩
  have hLength : census.cores.length = 3 := by
    rw [← List.length_map, hNames]
    rfl
  rw [hSequence s, hIndices, hLength]
  decide

/-- With an index of its own, the third core completes the sequence. -/
example : (Census.take {} (scatteredDesign "2")).result.toOption.map
    (fun census => census.cores.map Core.index) = some [0, 1, 2] := by
  decide +kernel

end ProbeAtlas
