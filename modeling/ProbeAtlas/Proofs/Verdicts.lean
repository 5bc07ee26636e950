import ProbeAtlas.Proofs.CutAgreement

/-!
# ProbeAtlas — verdicts and the log

A stage that turns something down says why: its verdict is negative iff it has posted an entry that begins
with the word for errors. Some stages stop at the first complaint and some go on to collect them, and the
texts quote names and literals that come from the design. No quoted part comes within the first letters of
a text, so the fixed lead of a text alone decides whether it reports an error.

`Logged.Reports` and `Run.Reports` say this of one computation. They are shown for each part of a stage,
and a chain of parts reports if its parts do.

Main result: `stages_report`.
-/

namespace ProbeAtlas

open Logged (post postAll)

variable {α β : Type}

-- ---------------------------------------------------------------------------
-- Entries that report errors
-- ---------------------------------------------------------------------------

namespace Entry

/-- A fixed text reports an error iff its letters begin with those of the mark. -/
theorem isError_fixed {level : Int} (letters : List Char) :
    isError ⟨level, String.ofList letters⟩ = ['E', 'r', 'r', 'o', 'r'].isPrefixOf letters := by
  unfold isError
  rw [String.toList_ofList]
  rfl

/-- A lead that is as long as the mark decides, whatever follows it. -/
theorem isError_lead {level : Int} {letters : List Char} (h : 5 ≤ letters.length) (rest : String) :
    isError ⟨level, String.ofList letters ++ rest⟩ =
      ['E', 'r', 'r', 'o', 'r'].isPrefixOf letters := by
  have hFixed : isError ⟨level, String.ofList letters⟩ = _ := isError_fixed letters
  rw [← hFixed]
  unfold isError
  rw [Bool.eq_iff_iff, List.isPrefixOf_iff_prefix, List.isPrefixOf_iff_prefix, String.toList_append]
  constructor
  · intro hMark
    refine List.prefix_of_prefix_length_le hMark (List.prefix_append ..) ?_
    rw [String.toList_ofList]
    exact h
  · intro hMark
    exact hMark.trans (List.prefix_append ..)

end Entry

namespace Log

/-- Whether some entry reports an error. -/
def alarmed (log : Log) : Bool :=
  log.any Entry.isError

theorem alarmed_iff {log : Log} : alarmed log = true ↔ ∃ e ∈ log, e.isError = true :=
  List.any_eq_true

@[simp] theorem alarmed_nil : alarmed [] = false := rfl

@[simp] theorem alarmed_cons (e : Entry) (log : Log) :
    alarmed (e :: log) = (e.isError || alarmed log) := rfl

@[simp] theorem alarmed_append (log log' : Log) :
    alarmed (log ++ log') = (alarmed log || alarmed log') :=
  List.any_append

theorem alarmed_post (level : Int) (text : String) :
    alarmed (post level text).log = Entry.isError ⟨level, text⟩ :=
  Bool.or_false _

/-- Texts that all report errors alarm if there is one. -/
theorem alarmed_texts {texts : List String} {level : Int}
    (h : ∀ t ∈ texts, Entry.isError ⟨level, t⟩ = true) :
    alarmed (texts.map fun t => ⟨level, t⟩) = !texts.isEmpty := by
  cases texts with
  | nil => rfl
  | cons t ts => simp [h t (List.mem_cons_self ..)]

/-- Texts none of which reports an error alarm nobody. -/
theorem alarmed_texts_false {texts : List String} {level : Int}
    (h : ∀ t ∈ texts, Entry.isError ⟨level, t⟩ = false) :
    alarmed (texts.map fun t => ⟨level, t⟩) = false := by
  induction texts with
  | nil => rfl
  | cons t ts ih =>
    obtain ⟨hFirst, hRest⟩ := List.forall_mem_cons.mp h
    rw [List.map_cons, alarmed_cons, hFirst, ih hRest, Bool.or_false]

end Log

-- ---------------------------------------------------------------------------
-- Computations that report
-- ---------------------------------------------------------------------------

/-- The value is a failure iff an error was posted. -/
def Logged.Reports (x : Logged α) (failed : α → Bool) : Prop :=
  failed x.value = Log.alarmed x.log

/-- A value at the end is a failure iff an error was posted. -/
def Run.Reports (r : Run α) (failed : α → Bool) : Prop :=
  ∀ a, r.result = .ok a → failed a = Log.alarmed r.log

/-- After an item that posts a complaint the verdict is negative. -/
theorem complainEach_reports {items : List α} {complaint : α → Option String}
    (h : ∀ x ∈ items, ∀ t, complaint x = some t → Entry.isError ⟨2, t⟩ = true) :
    (complainEach items complaint).Reports not := by
  have hTexts : ∀ t ∈ items.filterMap complaint, Entry.isError ⟨2, t⟩ = true := by
    intro t ht
    obtain ⟨x, hx, hComplaint⟩ := List.mem_filterMap.mp ht
    exact h x hx t hComplaint
  show (!(items.filterMap complaint).isEmpty) = Log.alarmed (_ ++ [])
  rw [List.append_nil]
  exact (Log.alarmed_texts hTexts).symm

/-- An entry that reports no error leaves the report to what follows. -/
theorem Logged.Reports.after_note {x : Logged α} {failed : α → Bool} (h : x.Reports failed) {level : Int}
    {text : String} (hText : Entry.isError ⟨level, text⟩ = false) :
    (do post level text; x).Reports failed := by
  unfold Reports at h ⊢
  simp [hText, h]

/-- An entry that reports an error is followed by a failure. -/
theorem Logged.reports_after_error {x : Logged α} {failed : α → Bool} (h : failed x.value = true)
    {level : Int} {text : String} (hText : Entry.isError ⟨level, text⟩ = true) :
    (do post level text; x).Reports failed := by
  unfold Reports
  simp [hText, h]

/-- A stage that cannot fail reports also as a part of one that can. -/
theorem Logged.Reports.lift {x : Logged α} {failed : α → Bool} (h : x.Reports failed) :
    (liftM x : Run α).Reports failed := by
  intro a ha
  cases ha
  rw [Run.log_lift]
  exact h

namespace Run

variable {failed : α → Bool}

/-- Behind a part that posts no error the rest decides. -/
theorem Reports.bind_quiet {r : Run β} {f : β → Run α}
    (hr : ∀ b, r.result = .ok b → Log.alarmed r.log = false)
    (hf : ∀ b, r.result = .ok b → (f b).Reports failed) : (r >>= f).Reports failed := by
  intro a ha
  obtain ⟨b, hb, ha⟩ := result_bind_eq_ok.mp ha
  rw [log_bind, hb, Log.alarmed_append, hr b hb, Bool.false_or]
  exact hf b hb a ha

/-- Where a failure of the first part ends the chain, the chain reports if both parts do. -/
theorem Reports.bind {r : Run (Option β)} {f : Option β → Run (Option α)} (hr : r.Reports Option.isNone)
    (hf : ∀ b, r.result = .ok (some b) → (f (some b)).Reports Option.isNone)
    (hNone : f none = pure none) : (r >>= f).Reports Option.isNone := by
  intro a ha
  obtain ⟨b, hb, ha⟩ := result_bind_eq_ok.mp ha
  rw [log_bind, hb, Log.alarmed_append, ← hr b hb]
  cases b with
  | none =>
    rw [hNone] at ha
    cases ha
    rfl
  | some b => exact hf b hb a ha

/-- What is asked of the subsystem or of a table posts nothing. -/
theorem Reports.bind_ofExcept {e : Except Fault β} {f : β → Run α}
    (hf : ∀ b, e = .ok b → (f b).Reports failed) : (ofExcept e >>= f).Reports failed :=
  Reports.bind_quiet (fun _ _ => rfl) hf

/-- An entry that reports no error leaves the report to what follows. -/
theorem Reports.after_note {r : Run α} (h : r.Reports failed) {level : Int} {text : String}
    (hText : Entry.isError ⟨level, text⟩ = false) :
    ((liftM (post level text) : Run Unit) >>= fun _ => r).Reports failed := by
  refine Reports.bind_quiet (fun _ _ => ?_) fun _ _ => h
  simp [hText]

/-- An entry that reports an error is followed by a failure. -/
theorem reports_after_error {r : Run α} (h : ∀ a, r.result = .ok a → failed a = true) {level : Int}
    {text : String} (hText : Entry.isError ⟨level, text⟩ = true) :
    ((liftM (post level text) : Run Unit) >>= fun _ => r).Reports failed := by
  intro a ha
  rw [result_lift_bind] at ha
  simp [hText, h a ha]

theorem reports_pure {a : α} (h : failed a = false) : (pure a : Run α).Reports failed := by
  intro a' ha'
  cases ha'
  exact h

end Run

-- ---------------------------------------------------------------------------
-- Candidates
-- ---------------------------------------------------------------------------

namespace ParamTable

theorem assign_reports (slots : List Slot) (params : List (String × String))
    (values : List (String × ParamValue)) : (assign slots params values).Reports Option.isNone := by
  induction params generalizing values with
  | nil => rfl
  | cons p rest ih =>
    obtain ⟨name, literal⟩ := p
    rw [assign]
    split
    · exact (ih values).after_note (Entry.isError_lead (by decide) _)
    · split
      · refine Logged.reports_after_error rfl ?_
        simp only [String.append_assoc]
        exact Entry.isError_lead (by decide) _
      · split
        · refine Logged.reports_after_error rfl ?_
          simp only [String.append_assoc]
          exact Entry.isError_lead (by decide) _
        · refine (ih _).after_note ?_
          simp only [String.append_assoc]
          exact Entry.isError_lead (by decide) _

theorem decode_reports (slots : List Slot) (params : List (String × String)) :
    (decode? slots params).Reports Option.isNone := by
  have hAssign := assign_reports slots params []
  unfold Logged.Reports at hAssign ⊢
  unfold decode?
  rw [Logged.value_bind, Logged.log_bind, Log.alarmed_append, ← hAssign]
  cases (assign slots params []).value with
  | none => rfl
  | some values =>
    have hMissing : Log.alarmed (((missing slots values).map fun key =>
        s!"Error: missing parameter {key}").map fun t => ⟨1, t⟩) = !(missing slots values).isEmpty := by
      rw [Log.alarmed_texts, List.isEmpty_map]
      intro t ht
      obtain ⟨key, -, rfl⟩ := List.mem_map.mp ht
      exact Entry.isError_lead (by decide) _
    dsimp only
    rw [Logged.log_bind, Logged.log_postAll, Log.alarmed_append, hMissing, Logged.value_bind]
    cases (missing slots values).isEmpty <;> rfl

end ParamTable

theorem Core.build_reports (name : String) (t : ParamTable) (ipType : String) :
    (Run.ofExcept (Core.build name t ipType) >>= Run.ofLogged).Reports Option.isNone := by
  refine Run.Reports.bind_ofExcept fun built hBuilt => Logged.Reports.lift ?_
  obtain ⟨c, -, hBuilt⟩ := except_bind_eq_ok.mp hBuilt
  cases hBuilt
  unfold accept
  split
  · rfl
  · exact Logged.reports_after_error rfl (Entry.isError_fixed _)

theorem Subsystem.build_reports (name : String) (t : ParamTable) (ipType : String) :
    (Run.ofExcept (Subsystem.build name t ipType) >>= Run.ofLogged).Reports Option.isNone := by
  refine Run.Reports.bind_ofExcept fun built hBuilt => Logged.Reports.lift ?_
  obtain ⟨shape, -, hBuilt⟩ := except_bind_eq_ok.mp hBuilt
  split at hBuilt
  · cases hBuilt
    exact Logged.reports_after_error rfl (Entry.isError_fixed _)
  · obtain ⟨s, -, hBuilt⟩ := except_bind_eq_ok.mp hBuilt
    cases hBuilt
    rfl

-- ---------------------------------------------------------------------------
-- The path to the subsystem
-- ---------------------------------------------------------------------------

namespace Design

theorem alarmed_postUses (d : Design) (module : String) :
    Log.alarmed (d.postUses module).log = false := by
  show Log.alarmed (_ ++ []) = false
  rw [List.append_nil]
  refine Log.alarmed_texts_false fun t ht => ?_
  obtain ⟨u, -, rfl⟩ := List.mem_map.mp ht
  simp only [String.append_assoc]
  exact Entry.isError_lead (by decide) _

theorem arrive_reports (chain : List String) : (arrive chain).Reports Option.isNone := by
  refine Logged.Reports.after_note ?_ (Entry.isError_fixed _)
  split
  · exact Logged.reports_after_error rfl (Entry.isError_fixed _)
  · refine Logged.Reports.after_note ?_ (Entry.isError_lead (by decide) _)
    rfl

theorem climb_reports (d : Design) (top : String) (fuel : Nat) (target : String) (chain : List String)
    (first : String) : (d.climb top fuel target chain first).Reports Option.isNone := by
  induction fuel using Nat.strongRecOn generalizing target chain first with
  | ind fuel ih =>
    rw [climb]
    refine Logged.Reports.after_note ?_ (Entry.isError_lead (by decide) _)
    unfold Logged.Reports
    rw [Logged.value_bind, Logged.log_bind, Log.alarmed_append, alarmed_postUses, Bool.false_or]
    split
    · exact Logged.reports_after_error rfl (Entry.isError_fixed _)
    · dsimp only
      split
      · have hArrive := arrive_reports
        unfold Logged.Reports at hArrive
        simp [← hArrive]
      · cases fuel with
        | zero => exact Logged.reports_after_error rfl (Entry.isError_lead (by decide) _)
        | succ fuel => exact ih fuel (Nat.lt_succ_self fuel) ..
    · refine Logged.reports_after_error rfl ?_
      simp only [String.append_assoc]
      exact Entry.isError_lead (by decide) _

theorem uniquePath_reports (d : Design) (module : String) :
    (d.uniquePath? module).Reports Option.isNone := by
  refine Logged.Reports.after_note ?_ (Entry.isError_fixed _)
  split
  · exact Logged.reports_after_error rfl (Entry.isError_fixed _)
  · split
    · exact Logged.reports_after_error rfl (Entry.isError_fixed _)
    · next top _ =>
      have hClimb := climb_reports d top.name d.modules.length module [] ""
      unfold Logged.Reports at hClimb ⊢
      rw [Logged.value_bind, Logged.log_bind, Log.alarmed_append, ← hClimb]
      split
      · next hPath => simp [hPath]
      · next path hPath =>
        have hFound : Entry.isError ⟨1, s!"OCLA Debug Subsystem Instantiator: {path.instantiator}"⟩ =
          false := Entry.isError_lead (by decide) _
        simp [hPath, hFound]

end Design

-- ---------------------------------------------------------------------------
-- The layout
-- ---------------------------------------------------------------------------

namespace Subsystem

theorem place_reports (s : Subsystem) (core : Nat) (probes : List Nat) (layout : Layout) :
    (s.place core probes layout).Reports Option.isNone := by
  induction probes generalizing layout with
  | nil => exact Run.reports_pure rfl
  | cons p rest ih =>
    rw [place]
    split
    · refine Run.reports_after_error (by simp) ?_
      simp only [String.append_assoc]
      exact Entry.isError_lead (by decide) _
    · refine Run.Reports.bind_ofExcept fun itf _ => ?_
      dsimp only
      split
      · refine Run.reports_after_error (by simp) ?_
        simp only [String.append_assoc]
        exact Entry.isError_lead (by decide) _
      · split
        · refine Run.reports_after_error (by simp) ?_
          simp only [String.append_assoc]
          exact Entry.isError_lead (by decide) _
        · refine Run.Reports.after_note (ih _) ?_
          simp only [String.append_assoc]
          exact Entry.isError_lead (by decide) _

theorem placeAll_reports (s : Subsystem) (positions : List Nat) (layout : Layout) :
    (s.placeAll positions layout).Reports Option.isNone := by
  induction positions generalizing layout with
  | nil => exact Run.reports_pure rfl
  | cons i rest ih =>
    rw [placeAll]
    refine Run.Reports.bind_ofExcept fun itf _ => ?_
    dsimp only
    split
    · split
      · refine Run.reports_after_error (by simp) ?_
        simp only [String.append_assoc]
        exact Entry.isError_lead (by decide) _
      · exact ih layout
    · split
      · refine Run.reports_after_error (by simp) ?_
        simp only [String.append_assoc]
        exact Entry.isError_lead (by decide) _
      · exact Run.Reports.bind (place_reports s i _ layout) (fun layout _ => ih layout) rfl

theorem decodeLayout_reports (s : Subsystem) : s.decodeLayout.Reports Option.isNone := by
  unfold decodeLayout
  have hTitle : Entry.isError ⟨1, s!"Decode IF[1..{s.nativeCount}]_Probes (No_Probes={s.probeCount})"⟩ =
      false := by
    simp only [String.append_assoc]
    exact Entry.isError_lead (by decide) _
  refine Run.Reports.after_note ?_ hTitle
  refine Run.Reports.bind (placeAll_reports s _ _) (fun layout _ => ?_) rfl
  dsimp only
  split
  · refine Run.reports_after_error (by simp) ?_
    simp only [String.append_assoc]
    exact Entry.isError_lead (by decide) _
  · refine Run.Reports.bind_ofExcept fun bare _ => ?_
    split
    · refine Run.reports_after_error (by simp) ?_
      simp only [String.append_assoc]
      exact Entry.isError_lead (by decide) _
    · split
      · exact Run.reports_pure rfl
      · refine Run.reports_after_error (by simp) ?_
        simp only [String.append_assoc]
        exact Entry.isError_lead (by decide) _

end Subsystem

-- ---------------------------------------------------------------------------
-- The cross-check
-- ---------------------------------------------------------------------------

/-- What a step posts and how it ends, without the bench that it leaves. -/
def Step.run (s : Step) : Run Bool :=
  ExceptT.mk ⟨s.result, s.log⟩

namespace Bench

theorem checkInstantiatorCount_reports (cores : List Core) (instantiators : List String) :
    (checkInstantiatorCount cores instantiators).Reports not := by
  unfold checkInstantiatorCount
  dsimp only
  split
  · rfl
  · refine Logged.reports_after_error rfl ?_
    simp only [String.append_assoc]
    exact Entry.isError_lead (by decide) _

theorem checkCoreCount_reports (b : Bench) : b.checkCoreCount.Reports not := by
  unfold checkCoreCount
  dsimp only
  split
  · rfl
  · refine Logged.reports_after_error rfl ?_
    simp only [String.append_assoc]
    exact Entry.isError_lead (by decide) _

theorem checkIndexSequence_reports (b : Bench) : b.checkIndexSequence.Reports not := by
  refine Logged.Reports.after_note (complainEach_reports ?_) (Entry.isError_lead (by decide) _)
  rintro ⟨c, k⟩ - t ht
  dsimp only at ht
  split at ht
  · cases ht
  · cases ht
    simp only [String.append_assoc]
    exact Entry.isError_lead (by decide) _

theorem checkInstantiatorName_reports (b : Bench) (instantiators : List String) :
    (b.checkInstantiatorName instantiators).Reports not := by
  refine Logged.Reports.after_note (complainEach_reports ?_) (Entry.isError_lead (by decide) _)
  intro name _ t ht
  split at ht
  · cases ht
  · cases ht
    exact Entry.isError_lead (by decide) _

theorem checkIdentity_reports (b : Bench) : b.checkIdentity.Reports not := by
  refine Logged.Reports.after_note (complainEach_reports fun c _ t ht => ?_) ?_
  · split at ht
    · cases ht
    · cases ht
      simp only [String.append_assoc]
      exact Entry.isError_lead (by decide) _
  · simp only [String.append_assoc]
    exact Entry.isError_lead (by decide) _

theorem checkBusPorts_reports (b : Bench) : b.checkBusPorts.Reports not := by
  unfold checkBusPorts
  split
  · rfl
  · refine Logged.Reports.after_note (complainEach_reports fun c _ t ht => ?_) ?_
    · split at ht
      · cases ht
      · cases ht
        simp only [String.append_assoc]
        exact Entry.isError_lead (by decide) _
    · simp only [String.append_assoc]
      exact Entry.isError_lead (by decide) _

theorem layout_reports (b : Bench) : b.layout.Reports Option.isNone := by
  refine Run.Reports.after_note ?_ (Entry.isError_fixed _)
  split
  · exact Run.reports_pure rfl
  · exact b.subsystem.decodeLayout_reports

theorem checkLayout_reports (b : Bench) : b.checkLayout.run.Reports not := by
  have hLayout := b.layout_reports
  unfold checkLayout
  dsimp only
  split
  · intro verdict hVerdict
    cases hVerdict
  · next hNone =>
    intro verdict hVerdict
    cases hVerdict
    exact hLayout none hNone
  · next l hSome =>
    have hQuiet := hLayout (some l) hSome
    split
    · intro verdict hVerdict
      cases hVerdict
    · intro verdict hVerdict
      obtain ⟨-, -, rfl⟩ := except_map_eq_ok.mp hVerdict
      exact hQuiet

theorem widthComplaint_isError {s : Subsystem} {l : Layout} {c : Core} {text : String}
    (h : widthComplaint s l c = .ok (some text)) : Entry.isError ⟨2, text⟩ = true := by
  unfold widthComplaint at h
  dsimp only at h
  split at h
  · obtain ⟨bus, -, h⟩ := except_bind_eq_ok.mp h
    split at h
    · cases h
    · cases h
      simp only [String.append_assoc]
      exact Entry.isError_lead (by decide) _
  · split at h
    · cases h
    · cases h
      simp only [String.append_assoc]
      exact Entry.isError_lead (by decide) _

/-- A complaint about a core makes the verdict negative, whatever the cores behind it are like. -/
theorem checkWidths_reports (s : Subsystem) (l : Layout) (cores : List Core) :
    (checkWidths s l cores).Reports not := by
  induction cores with
  | nil => exact Run.reports_pure rfl
  | cons c cs ih =>
    rw [checkWidths]
    refine Run.Reports.bind_ofExcept fun complaint hComplaint => ?_
    cases complaint with
    | none => exact ih
    | some text =>
      refine Run.reports_after_error (fun verdict hVerdict => ?_) (widthComplaint_isError hComplaint)
      obtain ⟨-, -, hVerdict⟩ := Run.result_bind_eq_ok.mp hVerdict
      cases hVerdict
      rfl

theorem checkCoreWidths_reports (b : Bench) : b.checkCoreWidths.Reports not :=
  Run.Reports.after_note
    (Run.Reports.bind_ofExcept fun l _ => checkWidths_reports b.subsystem l b.cores)
    (Entry.isError_fixed _)

theorem checkUnusedInterfaces_reports (b : Bench) : b.checkUnusedInterfaces.Reports not := by
  unfold checkUnusedInterfaces
  dsimp only
  split
  · exact Run.reports_pure rfl
  · refine Run.Reports.after_note (Run.Reports.bind_ofExcept fun l _ => Logged.Reports.lift
      (complainEach_reports fun i _ t ht => ?_)) ?_
    · split at ht
      · cases ht
      · cases ht
        simp only [String.append_assoc]
        exact Entry.isError_lead (by decide) _
    · simp only [String.append_assoc]
      exact Entry.isError_lead (by decide) _

theorem checkProbesSum_reports (b : Bench) : b.checkProbesSum.Reports not := by
  refine Run.Reports.after_note ?_ (Entry.isError_fixed _)
  dsimp only
  split
  · refine Run.reports_after_error (by simp) ?_
    simp only [String.append_assoc]
    exact Entry.isError_lead (by decide) _
  · refine Run.Reports.bind_ofExcept fun l _ => ?_
    split
    · refine Run.reports_after_error (by simp) ?_
      simp only [String.append_assoc]
      exact Entry.isError_lead (by decide) _
    · exact Run.reports_pure rfl

theorem postAddresses_reports (cores : List Core) (seen : List Nat) :
    (postAddresses cores seen).Reports not := by
  induction cores generalizing seen with
  | nil => rfl
  | cons c cs ih =>
    rw [postAddresses]
    split
    · refine Logged.reports_after_error rfl ?_
      simp only [String.append_assoc]
      exact Entry.isError_lead (by decide) _
    · refine (ih _).after_note ?_
      simp only [String.append_assoc]
      exact Entry.isError_lead (by decide) _

theorem checkBaseAddresses_reports (b : Bench) : b.checkBaseAddresses.run.Reports not := by
  intro verdict hVerdict
  obtain ⟨-, -, rfl⟩ := except_map_eq_ok.mp hVerdict
  have hPosted := postAddresses_reports (addressCores b.subsystem b.cores).1 []
  have hTitle : Entry.isError ⟨1, s!"Parameter IF[1..{b.cores.length}]_BaseAddress must not conflict"⟩ =
      false := by
    simp only [String.append_assoc]
    exact Entry.isError_lead (by decide) _
  unfold Logged.Reports at hPosted
  show (!_) = Log.alarmed ((post 1 _).log ++ _)
  rw [Log.alarmed_append, Log.alarmed_post, hTitle, hPosted, Bool.false_or]

/-- What each of the checks reports, the checks up to the first failure report. -/
theorem runChecks_reports {checks : List (Bench → Step)}
    (h : ∀ check ∈ checks, ∀ b, (check b).run.Reports not) (b : Bench) :
    (runChecks checks b).run.Reports not := by
  induction checks generalizing b with
  | nil => exact Run.reports_pure rfl
  | cons check rest ih =>
    obtain ⟨hFirst, hRest⟩ := List.forall_mem_cons.mp h
    rw [runChecks, Step.andThen]
    split
    · next hPassed =>
      intro verdict hVerdict
      have hQuiet := hFirst b true hPassed
      have hLater := ih hRest (check b).bench verdict hVerdict
      show (!verdict) = Log.alarmed ((check b).log ++ (runChecks rest (check b).bench).log)
      have hLog : Log.alarmed (check b).log = false := hQuiet.symm
      rw [Log.alarmed_append, hLog, Bool.false_or]
      exact hLater
    · exact hFirst b

theorem crossCheck_reports (b : Bench) (instantiators : List String) :
    (b.crossCheck instantiators).run.Reports not := by
  have hChecks : ∀ check ∈ checks instantiators, ∀ b, (check b).run.Reports not := by
    simp only [checks, List.forall_mem_cons]
    refine ⟨fun b => (checkInstantiatorCount_reports b.cores instantiators).lift,
      fun b => b.checkCoreCount_reports.lift, fun b => b.checkIndexSequence_reports.lift,
      fun b => (b.checkInstantiatorName_reports instantiators).lift,
      fun b => b.checkIdentity_reports.lift, fun b => b.checkBusPorts_reports.lift,
      checkLayout_reports, checkCoreWidths_reports, checkUnusedInterfaces_reports,
      checkProbesSum_reports, checkBaseAddresses_reports, by simp⟩
  unfold crossCheck
  dsimp only
  split
  · intro verdict hVerdict
    cases hVerdict
  · exact runChecks_reports hChecks b

theorem crossCheckAlone_reports (cores : List Core) (instantiators : List String) :
    (crossCheckAlone cores instantiators).Reports not := by
  refine Run.Reports.after_note ?_ (Entry.isError_fixed _)
  split
  · intro verdict hVerdict
    cases hVerdict
  · -- only a failed count lets the stage end with a verdict, and that verdict is negative
    intro verdict hVerdict
    obtain ⟨ok, hOk, hVerdict⟩ := Run.result_bind_eq_ok.mp hVerdict
    have hCount := (checkInstantiatorCount_reports cores instantiators).lift ok hOk
    rw [Run.log_bind, hOk, Log.alarmed_append, ← hCount]
    cases ok with
    | true => cases hVerdict
    | false =>
      cases hVerdict
      rfl

end Bench

-- ---------------------------------------------------------------------------
-- Wiring and cutting
-- ---------------------------------------------------------------------------

/-- What wiring posts and how it ends, without the cores that it leaves. -/
def Wired.run (w : Wired) : Run Bool :=
  ExceptT.mk ⟨w.result, w.log⟩

namespace Site

theorem wireProbe_reports (site : Site) (core : String) (probe : Nat) :
    (site.wireProbe core probe).Reports fun found => !found.2 := by
  unfold wireProbe
  dsimp only
  split
  · refine Run.reports_after_error (by simp) ?_
    simp only [String.append_assoc]
    exact Entry.isError_lead (by decide) _
  · refine Run.Reports.after_note ?_ (Entry.isError_lead (by decide) _)
    split
    · exact Run.reports_after_error (by simp) (Entry.isError_lead (by decide) _)
    · refine Run.Reports.after_note (Run.Reports.bind_ofExcept fun declared _ => ?_)
        (Entry.isError_lead (by decide) _)
      split
      · exact Run.reports_pure rfl
      · refine Run.reports_after_error (by simp) ?_
        simp only [String.append_assoc]
        exact Entry.isError_lead (by decide) _

/-- All probes are looked up, and one that is not as it should be spoils the verdict. -/
theorem wireProbes_reports (site : Site) (core : String) (probes : List Nat) :
    (site.wireProbes core probes).Reports fun found => !found.2 := by
  induction probes with
  | nil => exact Run.reports_pure rfl
  | cons probe rest ih =>
    intro found hFound
    rw [wireProbes] at hFound ⊢
    obtain ⟨⟨first, ok⟩, hFirst, hFound⟩ := Run.result_bind_eq_ok.mp hFound
    obtain ⟨⟨more, okMore⟩, hMore, hFound⟩ := Run.result_bind_eq_ok.mp hFound
    cases hFound
    have hOk := site.wireProbe_reports core probe _ hFirst
    have hOkMore := ih _ hMore
    rw [Run.log_bind, hFirst, Log.alarmed_append, ← hOk]
    dsimp only
    rw [Run.log_bind, hMore, Log.alarmed_append, ← hOkMore]
    simp

theorem wireCore_reports (site : Site) (c : Core) :
    (site.wireCore c).Reports fun found => !found.2 := by
  unfold wireCore
  split
  · refine Run.Reports.bind_ofExcept fun s _ => Run.Reports.bind_ofExcept fun bus _ => ?_
    refine Run.Reports.after_note (Run.reports_pure rfl) ?_
    simp only [String.append_assoc]
    exact Entry.isError_lead (by decide) _
  · exact site.wireProbes_reports c.name c.probeOrder.reverse

theorem wireCores_reports (site : Site) (cores : List Core) : (site.wireCores cores).run.Reports not := by
  induction cores with
  | nil => exact Run.reports_pure rfl
  | cons c cs ih =>
    intro verdict hVerdict
    have hCore := site.wireCore_reports c
    rw [wireCores] at hVerdict ⊢
    dsimp only at hVerdict ⊢
    cases hRun : (site.wireCore c).result with
    | error fault =>
      rw [hRun] at hVerdict
      cases hVerdict
    | ok found =>
      obtain ⟨fragments, ok⟩ := found
      rw [hRun] at hVerdict
      obtain ⟨okRest, hRest, rfl⟩ := except_map_eq_ok.mp hVerdict
      have hOk := hCore _ hRun
      have hOkRest := ih okRest hRest
      show (!(ok && okRest)) = Log.alarmed ((site.wireCore c).log ++ (site.wireCores cs).log)
      rw [Log.alarmed_append, ← hOk, Bool.not_and]
      exact congrArg ((!ok) || ·) hOkRest

end Site

theorem checkWired_reports (cores : List Core) : (checkWired cores).Reports not := by
  refine complainEach_reports fun c _ t ht => ?_
  split at ht
  · cases ht
    simp only [String.append_assoc]
    exact Entry.isError_lead (by decide) _
  · cases ht

theorem wireAll_reports (s : Option Subsystem) (cores : List Core) (top : Option Module)
    (instantiator : String) (rules : Rules) :
    (wireAll s cores top instantiator rules).run.Reports not := by
  have hTitle : ∀ log : Log, Log.alarmed
      ((post 0 s!"Retrieve OCLA signals from instantiator: {instantiator}").log ++ log) =
        Log.alarmed log := by
    intro log
    have hText : Entry.isError ⟨0, s!"Retrieve OCLA signals from instantiator: {instantiator}"⟩ = false :=
      Entry.isError_lead (by decide) _
    rw [Log.alarmed_append, Log.alarmed_post, hText, Bool.false_or]
  unfold wireAll
  dsimp only
  split
  · intro verdict hVerdict
    cases hVerdict
  · split
    · intro verdict hVerdict
      cases hVerdict
    · next top =>
      split
      · next cell _ =>
        split
        · intro verdict hVerdict
          cases hVerdict
        · next ok hOk =>
          intro verdict hVerdict
          cases hVerdict
          have hCores : (!ok) = Log.alarmed (Site.wireCores ⟨top, s, rules, cell⟩ cores).log :=
            Site.wireCores_reports ⟨top, s, rules, cell⟩ cores ok hOk
          have hWired := checkWired_reports (Site.wireCores ⟨top, s, rules, cell⟩ cores).cores
          unfold Logged.Reports at hWired
          show (!(ok && _)) = Log.alarmed (_ ++ _)
          rw [List.append_assoc, List.append_assoc, hTitle, Log.alarmed_append, Log.alarmed_append,
            ← hCores, ← hWired, Bool.not_and]
          have hPlace : Entry.isError ⟨1, s!"Instantiated as {cell.name}"⟩ = false :=
            Entry.isError_lead (by decide) _
          rw [Log.alarmed_post, hPlace, Bool.false_or]
      · intro verdict hVerdict
        cases hVerdict
        show true = Log.alarmed (_ ++ (post 1 _).log)
        rw [hTitle, Log.alarmed_post, eq_comm]
        simp only [String.append_assoc]
        exact Entry.isError_lead (by decide) _

theorem cutProbes_reports (s : Option Subsystem) (level : Int) (probes : List Nat)
    (fragments : List Fragment) : (cutProbes s level probes fragments).Reports not := by
  induction probes generalizing fragments with
  | nil =>
    rw [cutProbes]
    split
    · exact Run.reports_pure rfl
    · refine Run.reports_after_error (by simp) ?_
      simp only [String.append_assoc]
      exact Entry.isError_lead (by decide) _
  | cons p ps ih =>
    rw [cutProbes]
    refine Run.Reports.bind_ofExcept fun width _ => ?_
    split
    · exact ih _
    · refine Run.reports_after_error (by simp) ?_
      simp only [String.append_assoc]
      exact Entry.isError_lead (by decide) _
    · refine Run.reports_after_error (by simp) ?_
      simp only [String.append_assoc]
      exact Entry.isError_lead (by decide) _

theorem Core.checkCut_reports (c : Core) (s : Option Subsystem) (level : Int) :
    (c.checkCut s level).Reports not := by
  unfold checkCut
  dsimp only
  split
  · refine Run.reports_after_error (by simp) ?_
    simp only [String.append_assoc]
    exact Entry.isError_lead (by decide) _
  · split
    · exact Run.reports_pure rfl
    · exact cutProbes_reports s level c.probeOrder.reverse c.probes

-- ---------------------------------------------------------------------------
-- All stages
-- ---------------------------------------------------------------------------

/-- Behind whatever has been posted before, the run appends entries. If it ends with a value, the value is
a failure iff one of the appended entries reports an error. -/
def Run.Appends (r : Run α) (failed : α → Bool) : Prop :=
  ∀ before : Logged Unit, ∃ posted : Log,
    ((liftM before : Run Unit) >>= fun _ => r).log = before.log ++ posted ∧
      ∀ a, r.result = .ok a → (failed a = true ↔ ∃ e ∈ posted, e.isError = true)

theorem Run.Reports.appends {r : Run α} {failed : α → Bool} (h : r.Reports failed) :
    r.Appends failed := by
  intro before
  refine ⟨r.log, Run.log_lift_bind before _, fun a ha => ?_⟩
  rw [h a ha, Log.alarmed_iff]

/-- **The verdict of every stage agrees with its log.** A stage appends to the log, and if it ends with a
verdict, the verdict is negative iff an entry that it appended reports an error. -/
theorem stages_report :
    (∀ (slots : List Slot) (params : List (String × String)),
      (Run.ofLogged (ParamTable.decode? slots params)).Appends Option.isNone) ∧
    (∀ (name : String) (t : ParamTable) (ipType : String),
      (Run.ofExcept (Core.build name t ipType) >>= Run.ofLogged).Appends Option.isNone) ∧
    (∀ (name : String) (t : ParamTable) (ipType : String),
      (Run.ofExcept (Subsystem.build name t ipType) >>= Run.ofLogged).Appends Option.isNone) ∧
    (∀ (d : Design) (module : String),
      (Run.ofLogged (d.uniquePath? module)).Appends Option.isNone) ∧
    (∀ s : Subsystem, s.decodeLayout.Appends Option.isNone) ∧
    (∀ (b : Bench) (instantiators : List String), (b.crossCheck instantiators).run.Appends not) ∧
    (∀ (cores : List Core) (instantiators : List String),
      (Bench.crossCheckAlone cores instantiators).Appends not) ∧
    (∀ (s : Option Subsystem) (cores : List Core) (top : Option Module) (instantiator : String)
      (rules : Rules), (wireAll s cores top instantiator rules).run.Appends not) ∧
    ∀ (c : Core) (s : Option Subsystem) (level : Int), (c.checkCut s level).Appends not := by
  refine ⟨?_, ?_, ?_, ?_, ?_, ?_, ?_, ?_, ?_⟩
  · exact fun slots params => (ParamTable.decode_reports slots params).lift.appends
  · exact fun name t ipType => (Core.build_reports name t ipType).appends
  · exact fun name t ipType => (Subsystem.build_reports name t ipType).appends
  · exact fun d module => (d.uniquePath_reports module).lift.appends
  · exact fun s => s.decodeLayout_reports.appends
  · exact fun b instantiators => (b.crossCheck_reports instantiators).appends
  · exact fun cores instantiators => (Bench.crossCheckAlone_reports cores instantiators).appends
  · exact fun s cores top instantiator rules =>
      (wireAll_reports s cores top instantiator rules).appends
  · exact fun c s level => (c.checkCut_reports s level).appends

/-- A cross-check that passes has posted no error behind the entry before it, and one that finds a wrong
place has. -/
theorem pairedBench_reports :
    let passing := (pairedBench.crossCheck (List.replicate 3 "ocla_debug_subsystem")).run
    let failing := (pairedBench.crossCheck (List.replicate 3 "other")).run
    passing.result = .ok true ∧ failing.result = .ok false ∧
      (∃ posted, ((liftM (post 0 "Error: before") : Run Unit) >>= fun _ => passing).log =
        ⟨0, "Error: before"⟩ :: posted ∧ ¬ ∃ e ∈ posted, e.isError = true) ∧
      ∃ posted, ((liftM (post 0 "Error: before") : Run Unit) >>= fun _ => failing).log =
        ⟨0, "Error: before"⟩ :: posted ∧ ∃ e ∈ posted, e.isError = true := by
  have hPassing : (pairedBench.crossCheck
      (List.replicate 3 "ocla_debug_subsystem")).run.result = .ok true := by decide +kernel
  have hFailing : (pairedBench.crossCheck
      (List.replicate 3 "other")).run.result = .ok false := by decide +kernel
  have hCrossCheck := stages_report.2.2.2.2.2.1 pairedBench
  obtain ⟨posted, hLog, hPosted⟩ := hCrossCheck _ (post 0 "Error: before")
  obtain ⟨posted', hLog', hPosted'⟩ := hCrossCheck _ (post 0 "Error: before")
  refine ⟨hPassing, hFailing, ⟨posted, hLog, ?_⟩, posted', hLog', ?_⟩
  · rw [← hPosted true hPassing]
    decide
  · exact (hPosted' false hFailing).mp rfl

end ProbeAtlas
