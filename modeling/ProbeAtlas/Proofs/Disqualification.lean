import ProbeAtlas.Analysis
import ProbeAtlas.Proofs.Outcome

/-!
# ProbeAtlas — who disqualifies a core

The last stage posts one particular entry when it turns a core down. Whether an analysis can ever get
there is a question about its log, so this module looks at what the other stages post. Most of them
never post on the third level, and the few texts on that level begin differently.

Main results:

* `Analysis.disqualification_mem_finish` — a core that is turned down is disqualified in the log.
* `Census.disqualification_notMem_take`, `Design.disqualification_notMem_uniquePath`,
  `Bench.disqualification_notMem_crossCheck`, `Bench.disqualification_notMem_wire` — no stage before
  the last one posts that entry.
-/

namespace ProbeAtlas

open Logged (post postAll)

-- ---------------------------------------------------------------------------
-- The entry, and logs of chains
-- ---------------------------------------------------------------------------

namespace Analysis

/-- What the last stage posts about a core that it turns down. -/
def disqualification : Entry :=
  ⟨3, "Error: Disqualify this module"⟩

@[simp] theorem disqualification_eq_iff {level : Int} {text : String} :
    disqualification = ⟨level, text⟩ ↔ level = 3 ∧ text = "Error: Disqualify this module" := by
  simp [disqualification, eq_comm]

@[simp] theorem eq_disqualification_iff {level : Int} {text : String} :
    ⟨level, text⟩ = disqualification ↔ level = 3 ∧ text = "Error: Disqualify this module" := by
  rw [eq_comm, disqualification_eq_iff]

/-- A text differs from every text that does not begin with its first part. -/
theorem append_ne_of_not_prefix {lead text : String} (h : ¬ lead.toList <+: text.toList)
    (rest : String) : lead ++ rest ≠ text := by
  rintro rfl
  rw [String.toList_append] at h
  exact h (List.prefix_append ..)

end Analysis

open Analysis (disqualification disqualification_eq_iff append_ne_of_not_prefix)

variable {α β : Type} {e : Entry}

@[simp] theorem Logged.log_map (f : α → β) (x : Logged α) : (f <$> x).log = x.log :=
  List.append_nil _

namespace Run

@[simp] theorem log_lift (x : Logged α) : (liftM x : Run α).log = x.log :=
  List.append_nil _

@[simp] theorem log_ofLogged (x : Logged α) : (ofLogged x).log = x.log :=
  List.append_nil _

@[simp] theorem log_map (f : α → β) (r : Run α) : (f <$> r).log = r.log := by
  obtain ⟨value, log⟩ := r
  cases value <;> exact List.append_nil _

@[simp] theorem log_lift_bind (x : Logged α) (f : α → Run β) :
    ((liftM x : Run α) >>= f).log = x.log ++ (f x.value).log := by
  rw [log_bind, log_lift, result_lift]

/-- What neither part of a chain posts, the chain does not post. -/
theorem notMem_log_bind {r : Run α} {f : α → Run β} (hr : e ∉ r.log)
    (hf : ∀ a, r.result = .ok a → e ∉ (f a).log) : e ∉ (r >>= f).log := by
  rw [log_bind, List.mem_append, not_or]
  refine ⟨hr, ?_⟩
  cases hResult : r.result with
  | error fault => exact List.not_mem_nil
  | ok a => exact hf a hResult

end Run

-- ---------------------------------------------------------------------------
-- The census
-- ---------------------------------------------------------------------------

namespace ParamTable

@[simp] theorem disqualification_notMem_assign (slots : List Slot) (params : List (String × String))
    (values : List (String × ParamValue)) : disqualification ∉ (assign slots params values).log := by
  induction params generalizing values with
  | nil => simp [assign]
  | cons p rest ih =>
    obtain ⟨name, literal⟩ := p
    rw [assign]
    split
    · simp [ih]
    · split
      · simp
      · split <;> simp [ih]

@[simp] theorem disqualification_notMem_decode (slots : List Slot) (params : List (String × String)) :
    disqualification ∉ (decode? slots params).log := by
  unfold decode?
  rw [Logged.log_bind, List.mem_append, not_or]
  refine ⟨disqualification_notMem_assign slots params [], ?_⟩
  split <;> simp

end ParamTable

theorem Core.disqualification_notMem_build {name ipType : String} {t : ParamTable}
    {built : Logged (Option Core)} (h : Core.build name t ipType = .ok built) :
    disqualification ∉ built.log := by
  obtain ⟨c, -, h⟩ := except_bind_eq_ok.mp h
  cases h
  unfold accept
  split <;> simp

theorem Subsystem.disqualification_notMem_build {name ipType : String} {t : ParamTable}
    {built : Logged (Option Subsystem)} (h : Subsystem.build name t ipType = .ok built) :
    disqualification ∉ built.log := by
  obtain ⟨shape, -, h⟩ := except_bind_eq_ok.mp h
  split at h
  · cases h
    simp [Shape.refuse]
  · obtain ⟨s, -, h⟩ := except_bind_eq_ok.mp h
    cases h
    simp

namespace Census

/-- Decoding the parameters of a candidate and building it from them. -/
theorem disqualification_notMem_candidate {slots : List Slot} {params : List (String × String)}
    {build : ParamTable → Except Fault (Logged (Option α))}
    (hBuild : ∀ t built, build t = .ok built → disqualification ∉ built.log) :
    disqualification ∉ (do
      match ← ParamTable.decode? slots params with
      | none => return none
      | some table =>
        let built ← Run.ofExcept (build table)
        Run.ofLogged built : Run (Option α)).log := by
  rw [Run.log_lift_bind, List.mem_append, not_or]
  refine ⟨ParamTable.disqualification_notMem_decode slots params, ?_⟩
  split
  · simp
  · refine Run.notMem_log_bind (by simp) fun built hBuilt => ?_
    rw [Run.log_ofLogged]
    exact hBuild _ built hBuilt

theorem disqualification_notMem_visit (rules : Rules) (census : Census) (m : Module) :
    disqualification ∉ (visit rules census m).log := by
  have hCore : disqualification ∉ (core? rules m).log :=
    disqualification_notMem_candidate fun _ _ => Core.disqualification_notMem_build
  have hSubsystem : disqualification ∉ (subsystem? rules m).log :=
    disqualification_notMem_candidate fun _ _ => Subsystem.disqualification_notMem_build
  unfold visit
  split
  · simp
  · rw [Run.log_lift_bind, List.mem_append, not_or]
    refine ⟨by simp, Run.notMem_log_bind hCore fun core _ => ?_⟩
    split <;> simp
  · rw [Run.log_lift_bind, List.mem_append, not_or]
    refine ⟨by simp, Run.notMem_log_bind hSubsystem fun core _ => ?_⟩
    split <;> simp

@[simp] theorem disqualification_notMem_take (rules : Rules) (d : Design) :
    disqualification ∉ (take rules d).log := by
  have hAll : ∀ (ms : List Module) (census : Census),
      disqualification ∉ (visitAll rules ms census).log := by
    intro ms
    induction ms with
    | nil => simp [visitAll]
    | cons m ms ih =>
      intro census
      rw [visitAll]
      exact Run.notMem_log_bind (disqualification_notMem_visit rules census m) fun found _ => ih found
  unfold take
  split
  · simp
  · exact hAll d.modules ⟨[], []⟩

end Census

-- ---------------------------------------------------------------------------
-- The path and the holders
-- ---------------------------------------------------------------------------

namespace Design

@[simp] theorem disqualification_notMem_arrive (chain : List String) :
    disqualification ∉ (arrive chain).log := by
  have hChain : ∀ path : String, s!"Connection chain for OCLA Debug Subsystem: {path}" ≠
      "Error: Disqualify this module" := by
    intro path
    exact append_ne_of_not_prefix (by decide) path
  unfold arrive
  rw [Logged.log_bind, List.mem_append, not_or]
  refine ⟨by simp, ?_⟩
  split
  · simp
  · simp [hChain]

@[simp] theorem disqualification_notMem_climb (d : Design) (top : String) (fuel : Nat) (target : String)
    (chain : List String) (first : String) :
    disqualification ∉ (d.climb top fuel target chain first).log := by
  -- with and without fuel left, only the branch that climbs on differs
  induction fuel generalizing target chain first
  all_goals
    rw [climb]
    simp only [Logged.log_bind, List.mem_append, not_or]
    refine ⟨by simp, by simp [postUses], ?_⟩
    split
    · simp
    · split <;> simp [*]
    · simp

@[simp] theorem disqualification_notMem_uniquePath (d : Design) (module : String) :
    disqualification ∉ (d.uniquePath? module).log := by
  unfold uniquePath?
  rw [Logged.log_bind, List.mem_append, not_or]
  refine ⟨by simp, ?_⟩
  split
  · simp
  · split
    · simp
    · rw [Logged.log_bind, List.mem_append, not_or]
      refine ⟨by simp, ?_⟩
      split <;> simp

@[simp] theorem disqualification_notMem_holders (d : Design) (module : String) :
    disqualification ∉ (d.holders module).log := by
  unfold holders
  rw [Logged.log_bind, List.mem_append, not_or, Logged.log_bind, List.mem_append, not_or]
  refine ⟨by simp, by simp, ?_⟩
  split <;> simp

end Design

/-- What no item posts, a traversal of the items does not post. -/
theorem Logged.notMem_log_mapM {f : α → Logged β} (h : ∀ x, e ∉ (f x).log) (xs : List α) :
    e ∉ (xs.mapM f).log := by
  induction xs with
  | nil => simp
  | cons x xs ih => simp [List.mapM_cons, h x, ih]

-- ---------------------------------------------------------------------------
-- The cross-check
-- ---------------------------------------------------------------------------

@[simp] theorem disqualification_notMem_complainEach (items : List α) (complaint : α → Option String) :
    disqualification ∉ (complainEach items complaint).log := by
  simp [complainEach]

namespace Subsystem

@[simp] theorem disqualification_notMem_place (s : Subsystem) (core : Nat) (ps : List Nat) (l : Layout) :
    disqualification ∉ (s.place core ps l).log := by
  induction ps generalizing l with
  | nil => simp [place]
  | cons p rest ih =>
    rw [place]
    split
    · simp
    · refine Run.notMem_log_bind (by simp) fun itf _ => ?_
      dsimp only
      split
      · simp
      · split <;> simp [ih]

@[simp] theorem disqualification_notMem_placeAll (s : Subsystem) (is : List Nat) (l : Layout) :
    disqualification ∉ (s.placeAll is l).log := by
  induction is generalizing l with
  | nil => simp [placeAll]
  | cons i rest ih =>
    rw [placeAll]
    refine Run.notMem_log_bind (by simp) fun itf _ => ?_
    dsimp only
    split
    · split <;> simp [ih]
    · split
      · simp
      · refine Run.notMem_log_bind (by simp) fun placed _ => ?_
        split <;> simp [ih]

@[simp] theorem disqualification_notMem_decodeLayout (s : Subsystem) :
    disqualification ∉ s.decodeLayout.log := by
  unfold decodeLayout
  rw [Run.log_lift_bind, List.mem_append, not_or]
  refine ⟨by simp, Run.notMem_log_bind (by simp) fun placed _ => ?_⟩
  split
  · simp
  · split
    · simp
    · refine Run.notMem_log_bind (by simp) fun bare _ => ?_
      split
      · simp
      · split <;> simp

end Subsystem

namespace Bench

@[simp] theorem disqualification_notMem_checkLayout (b : Bench) : disqualification ∉ b.checkLayout.log := by
  have hLayout : disqualification ∉ b.layout.log := by
    unfold layout
    rw [Run.log_lift_bind, List.mem_append, not_or]
    refine ⟨by simp, ?_⟩
    split
    · simp
    · exact Subsystem.disqualification_notMem_decodeLayout _
  unfold checkLayout
  dsimp only
  split
  · exact hLayout
  · exact hLayout
  · split <;> exact hLayout

@[simp] theorem disqualification_notMem_checkCoreWidths (b : Bench) :
    disqualification ∉ b.checkCoreWidths.log := by
  have hAll : ∀ (l : Layout) (cs : List Core),
      disqualification ∉ (checkWidths b.subsystem l cs).log := by
    intro l cs
    induction cs with
    | nil => simp [checkWidths]
    | cons c cs ih =>
      rw [checkWidths]
      refine Run.notMem_log_bind (by simp) fun complaint _ => ?_
      split <;> simp [ih]
  unfold checkCoreWidths
  rw [Run.log_lift_bind, List.mem_append, not_or]
  exact ⟨by simp, Run.notMem_log_bind (by simp) fun l _ => hAll l b.cores⟩

@[simp] theorem disqualification_notMem_checkUnusedInterfaces (b : Bench) :
    disqualification ∉ b.checkUnusedInterfaces.log := by
  unfold checkUnusedInterfaces
  dsimp only
  split
  · simp
  · rw [Run.log_lift_bind, List.mem_append, not_or]
    refine ⟨by simp, Run.notMem_log_bind (by simp) fun l _ => ?_⟩
    simp

@[simp] theorem disqualification_notMem_checkProbesSum (b : Bench) :
    disqualification ∉ b.checkProbesSum.log := by
  unfold checkProbesSum
  rw [Run.log_lift_bind, List.mem_append, not_or]
  refine ⟨by simp, ?_⟩
  dsimp only
  split
  · simp
  · refine Run.notMem_log_bind (by simp) fun l _ => ?_
    split <;> simp

@[simp] theorem disqualification_notMem_checkBaseAddresses (b : Bench) :
    disqualification ∉ b.checkBaseAddresses.log := by
  have hAll : ∀ (cs : List Core) (seen : List Nat), disqualification ∉ (postAddresses cs seen).log := by
    intro cs
    induction cs with
    | nil => simp [postAddresses]
    | cons c cs ih =>
      intro seen
      rw [postAddresses]
      split <;> simp [ih]
  unfold checkBaseAddresses
  simp [hAll]

theorem disqualification_notMem_checks {instantiators : List String} {check : Bench → Step}
    (h : check ∈ checks instantiators) (b : Bench) : disqualification ∉ (check b).log := by
  simp only [checks, List.mem_cons, List.not_mem_nil, or_false] at h
  rcases h with rfl | rfl | rfl | rfl | rfl | rfl | rfl | rfl | rfl | rfl | rfl
  · simp only [Step.reading, Run.log_lift, checkInstantiatorCount]
    split <;> simp
  · simp only [Step.reading, Run.log_lift, checkCoreCount]
    split <;> simp
  · simp [Step.reading, checkIndexSequence]
  · simp [Step.reading, checkInstantiatorName]
  · simp [Step.reading, checkIdentity]
  · simp only [Step.reading, Run.log_lift, checkBusPorts]
    split <;> simp
  · simp
  · simp [Step.reading]
  · simp [Step.reading]
  · simp [Step.reading]
  · simp

/-- What no check posts, all checks together do not post. -/
theorem notMem_runChecks {checks : List (Bench → Step)}
    (h : ∀ check ∈ checks, ∀ b, e ∉ (check b).log) (b : Bench) : e ∉ (runChecks checks b).log := by
  induction checks generalizing b with
  | nil => exact List.not_mem_nil
  | cons check rest ih =>
    have hFirst := h check (List.mem_cons_self ..) b
    rw [runChecks, Step.andThen]
    split
    · rw [List.mem_append, not_or]
      exact ⟨hFirst, ih (fun c hc => h c (List.mem_cons_of_mem _ hc)) _⟩
    · exact hFirst

@[simp] theorem disqualification_notMem_crossCheck (b : Bench) (instantiators : List String) :
    disqualification ∉ (b.crossCheck instantiators).log := by
  unfold crossCheck
  dsimp only
  split
  · simp
  · rw [List.mem_append, not_or]
    exact ⟨by simp, notMem_runChecks (fun _ h => disqualification_notMem_checks h) b⟩

end Bench

-- ---------------------------------------------------------------------------
-- Wiring
-- ---------------------------------------------------------------------------

namespace Site

@[simp] theorem disqualification_notMem_wireProbe (site : Site) (core : String) (probe : Nat) :
    disqualification ∉ (site.wireProbe core probe).log := by
  have hParse : ∀ port : String, s!"Error: Fail to parse connection {port}" ≠
      "Error: Disqualify this module" :=
    fun port => append_ne_of_not_prefix (by decide) port
  have hNames : ∀ names : String, s!"Connected to {names}" ≠ "Error: Disqualify this module" :=
    fun names => append_ne_of_not_prefix (by decide) names
  have hWidth : ∀ (port : String) (width probe declared : Nat),
      s!"Error: Connection {port} is {width} bit(s) but Probe{probe}_Width is {declared}" ≠
        "Error: Disqualify this module" := by
    intro port width probe declared
    simp only [String.append_assoc]
    exact append_ne_of_not_prefix (by decide) _
  unfold wireProbe
  dsimp only
  split
  · simp
  · rw [Run.log_lift_bind, List.mem_append, not_or]
    refine ⟨by simp, ?_⟩
    split
    · simp [hParse]
    · rw [Run.log_lift_bind, List.mem_append, not_or]
      refine ⟨by simp [hNames], Run.notMem_log_bind (by simp) fun declared _ => ?_⟩
      split
      · simp
      · rw [Run.log_lift_bind, List.mem_append, not_or, Logged.log_post, List.mem_singleton,
          disqualification_eq_iff, not_and]
        exact ⟨fun _ => hWidth _ _ _ _, by simp⟩

@[simp] theorem disqualification_notMem_wireCore (site : Site) (c : Core) :
    disqualification ∉ (site.wireCore c).log := by
  have hProbes : ∀ probes : List Nat, disqualification ∉ (site.wireProbes c.name probes).log := by
    intro probes
    induction probes with
    | nil => simp [wireProbes]
    | cons p ps ih =>
      rw [wireProbes]
      refine Run.notMem_log_bind (by simp) fun first _ => Run.notMem_log_bind ih fun more _ => ?_
      simp
  unfold wireCore
  split
  · refine Run.notMem_log_bind (by simp) fun s _ => Run.notMem_log_bind (by simp) fun bus _ => ?_
    simp
  · exact hProbes _

@[simp] theorem disqualification_notMem_wireCores (site : Site) (cores : List Core) :
    disqualification ∉ (site.wireCores cores).log := by
  induction cores with
  | nil => simp [wireCores]
  | cons c cs ih =>
    rw [wireCores]
    dsimp only
    split
    · simp
    · simp [ih]

end Site

@[simp] theorem Bench.disqualification_notMem_wire (b : Bench) (top : Option Module)
    (instantiator : String) (rules : Rules) :
    disqualification ∉ (b.wire top instantiator rules).log := by
  unfold wire wireAll
  dsimp only
  split
  · simp
  · split
    · simp
    · split
      · split
        · simp
        · simp [checkWired]
      · simp

-- ---------------------------------------------------------------------------
-- The last stage
-- ---------------------------------------------------------------------------

namespace Analysis

/-- **A core that the last stage turns down is disqualified in the log.** -/
theorem disqualification_mem_finish {s : Subsystem} {c : Core} (h : (finish s c).result = .ok false) :
    disqualification ∈ (finish s c).log := by
  unfold finish at h ⊢
  rw [Run.result_lift_bind, Run.result_lift_bind] at h
  obtain ⟨ok, hCut, h⟩ := Run.result_bind_eq_ok.mp h
  cases ok with
  | true => cases h
  | false =>
    rw [Run.log_lift_bind, Run.log_lift_bind, Run.log_bind, hCut]
    simp

/-- A core whose signal can be cut is not. -/
theorem disqualification_notMem_finish {s : Subsystem} {c : Core}
    (hCut : (c.checkCut (some s) 3).result = .ok true) (hLog : (c.checkCut (some s) 3).log = []) :
    disqualification ∉ (finish s c).log := by
  unfold finish
  rw [Run.log_lift_bind, Run.log_lift_bind, Run.log_bind, hCut, hLog]
  simp [postFragments, fragmentEntries]

end Analysis

end ProbeAtlas
