import ProbeAtlas.Proofs.DistinctNames
import ProbeAtlas.Proofs.NetNumeral

/-!
# ProbeAtlas — the first place that violates a schema

A schema has a value checked place by place. `Schema.visits` lists the places in the order of the check:
fields as the schema lists them, entries and items in their own order, and a value before what is inside it.
`Schema.Fits` is what a place has to hold, no matter what is inside it. So a value is accepted iff all of
its places fit, and an issue is about the first place that does not.

Main results:

* `Schema.issue?_locates` — the issue of a value is that of the first place at fault.
* `Schema.issue?_eq_none_iff` — which values are accepted.
* `Schema.at?_of_mem_visits` — the path of a place leads to it.
* `Schema.admits_list`, `Schema.admits_record`, `Schema.admits_fields` — what a schema admits, by its parts.
-/

namespace ProbeAtlas

-- ---------------------------------------------------------------------------
-- Kinds of values
-- ---------------------------------------------------------------------------

namespace Value

def IsText (v : Value) : Prop := ∃ s, v = .string s

def IsNumber (v : Value) : Prop := ∃ n, v = .number n ∧ n ≠ .nan

def IsScalar (v : Value) : Prop := v.IsText ∨ v.IsNumber

def IsOneOf (options : List String) (v : Value) : Prop := ∃ s ∈ options, v = .string s

/-- A net number, or the letter of a constant driver. -/
def IsBit (v : Value) : Prop :=
  (∃ n i, v = .number n ∧ n.toInt? = some i ∧ 0 ≤ i) ∨ v.IsOneOf ["0", "1", "x", "z"]

def IsArray (v : Value) : Prop := ∃ items, v = .array items

def IsObject (v : Value) : Prop := ∃ entries, v = .object entries

def IsArrayOf (P : Value → Prop) (v : Value) : Prop := v.IsArray ∧ ∀ x ∈ v.items, P x

def IsRecordOf (P : Value → Prop) (v : Value) : Prop := v.IsObject ∧ ∀ e ∈ v.entries, P e.2

/-- The field is there and holds what it has to. -/
def Has (name : String) (P : Value → Prop) (v : Value) : Prop := ∃ x, v.field? name = some x ∧ P x

/-- The field holds what it has to if it is there. -/
def MayHave (name : String) (P : Value → Prop) (v : Value) : Prop := ∀ x, v.field? name = some x → P x

/-- The items with their positions written out. -/
def indexed (v : Value) : List (String × Value) :=
  v.items.zipIdx.map fun e => (toString e.2, e.1)

/-- What is found at the end of a path: a step is the key of an entry or the position of an item. -/
def at? : Value → List String → Option Value
  | v, [] => some v
  | v, step :: path => (Entries.get? (v.indexed ++ v.entries) step).bind (at? · path)

end Value

-- ---------------------------------------------------------------------------
-- Places
-- ---------------------------------------------------------------------------

/-- A visit to a place in a value: the path to it, the schema for it and what is found there, which is
nothing if a mandatory field is missing. -/
structure Visit where
  path : List String
  schema : Schema
  found : Option Value

namespace Schema

/-- The value is of the right kind for the schema, whatever is inside it. -/
def Fits : Schema → Value → Prop
  | .text, v => v.IsText
  | .filled, v => ∃ s, v = .string s ∧ s ≠ ""
  | .containing part, v => ∃ s, v = .string s ∧ hasPart part s = true
  | .number, v => v.IsNumber
  | .flag, v => ∃ b, v = .bool b
  | .choice options, v => v.IsOneOf options
  | .scalar, v => v.IsScalar
  | .bit, v => v.IsBit
  | .list _, v => v.IsArray
  | .record _, v => v.IsObject
  | .fields _, v => v.IsObject
  | .orNull _, _ => True

end Schema

namespace Visit

/-- The visit to a value as a whole. -/
def root (s : Schema) (v : Value) : Visit :=
  ⟨[], s, some v⟩

/-- The visit as it is seen from one step further up. -/
def under (step : String) (p : Visit) : Visit :=
  { p with path := step :: p.path }

/-- What has to be there is there, and is of the right kind. -/
def Fits (p : Visit) : Prop := ∃ x, p.found = some x ∧ p.schema.Fits x

theorem fits_root {s : Schema} {v : Value} : (root s v).Fits ↔ s.Fits v := by
  constructor
  · rintro ⟨x, hx, hFits⟩
    cases hx
    exact hFits
  · exact fun hFits => ⟨v, rfl, hFits⟩

end Visit

namespace Schema

open Visit (root under)

mutual

/-- The places of a value, each before those inside it. Nothing is inside a value of the wrong kind. -/
def visits : Schema → Value → List Visit
  | .list item, v =>
    root (.list item) v :: v.indexed.flatMap fun e => (visits item e.2).map (under e.1)
  | .record item, v =>
    root (.record item) v :: v.entries.flatMap fun e => (visits item e.2).map (under e.1)
  | .fields known, v =>
    match v with
    | .object entries => root (.fields known) v :: fieldVisits known entries
    | v => [root (.fields known) v]
  | .orNull schema, v =>
    match v with
    | .null => [root (.orNull schema) .null]
    | v => root (.orNull schema) v :: visits schema v
  | s, v => [root s v]

/-- The places at and inside the known fields of an object. -/
def fieldVisits : List (String × Bool × Schema) → List (String × Value) → List Visit
  | [], _ => []
  | (name, required, schema) :: rest, entries =>
    match Entries.get? entries name with
    | none => (if required then [⟨[name], schema, none⟩] else []) ++ fieldVisits rest entries
    | some v => (visits schema v).map (under name) ++ fieldVisits rest entries

end

/-- Every place in the value fits. -/
def Admits (s : Schema) (v : Value) : Prop :=
  ∀ p ∈ s.visits v, p.Fits

/-- First of all comes the value itself. -/
theorem visits_eq_cons (s : Schema) (v : Value) : ∃ inner, s.visits v = root s v :: inner := by
  cases s with
  | list item => exact ⟨_, by rw [visits]⟩
  | record item => exact ⟨_, by rw [visits]⟩
  | fields known =>
    cases v with
    | object entries => exact ⟨_, by rw [visits]⟩
    | _ => exact ⟨[], by simp [visits]⟩
  | orNull schema =>
    cases v with
    | null => exact ⟨[], by simp [visits]⟩
    | _ => exact ⟨_, by rw [visits]; simp⟩
  | _ => exact ⟨[], by simp [visits]⟩

theorem root_mem_visits (s : Schema) (v : Value) : root s v ∈ s.visits v := by
  obtain ⟨inner, hVisits⟩ := visits_eq_cons s v
  rw [hVisits]
  exact List.mem_cons_self

end Schema

namespace Visit

variable {p : Visit}

/-- The place fits, and so does everything inside it. -/
def Conforms (p : Visit) : Prop := ∃ x, p.found = some x ∧ p.schema.Admits x

theorem conforms_root {s : Schema} {v : Value} : (root s v).Conforms ↔ s.Admits v := by
  constructor
  · rintro ⟨x, hx, hAdmits⟩
    cases hx
    exact hAdmits
  · exact fun hAdmits => ⟨v, rfl, hAdmits⟩

theorem Conforms.fits (h : p.Conforms) : p.Fits := by
  obtain ⟨x, hx, hAdmits⟩ := h
  exact ⟨x, hx, fits_root.mp (hAdmits _ (Schema.root_mem_visits ..))⟩

/-- What is known of a place once a path has been reached: it fits, and unless it is on the way, so does
everything inside it. -/
def Passed (path : List String) (p : Visit) : Prop :=
  p.Fits ∧ (p.Conforms ∨ p.path <+: path)

theorem Conforms.passed (h : p.Conforms) (path : List String) : p.Passed path :=
  ⟨h.fits, .inl h⟩

theorem Passed.under {path : List String} (h : p.Passed path) (step : String) :
    (p.under step).Passed (step :: path) :=
  ⟨h.1, h.2.imp id fun hPath => List.cons_prefix_cons.mpr ⟨rfl, hPath⟩⟩

end Visit

-- ---------------------------------------------------------------------------
-- What is reported
-- ---------------------------------------------------------------------------

/-- The issue is about the first of the places that is at fault. -/
def FirstFault (places : List Visit) (issue : Issue) : Prop :=
  ∃ before place after, places = before ++ place :: after ∧ place.path = issue.path ∧ ¬place.Fits ∧
    (issue.problem = .missing ↔ place.found = none) ∧ ∀ p ∈ before, p.Passed issue.path

/-- The report on places that were visited one after another: nothing if all of them conform, or else the
issue of the first one at fault. -/
structure Locates (places : List Visit) (report : Option Issue) : Prop where
  clean : report = none → ∀ p ∈ places, p.Conforms
  first : ∀ issue, report = some issue → FirstFault places issue

namespace Locates

variable {xs ys : List Visit} {a b : Option Issue}

theorem nil : Locates [] none :=
  ⟨by simp, by simp⟩

/-- The places of one part come before those of another. -/
theorem append (h : Locates xs a) (h' : Locates ys b) : Locates (xs ++ ys) (a.or b) := by
  cases a with
  | none =>
    have hClean := h.clean rfl
    rw [Option.none_or]
    refine ⟨fun hb => List.forall_mem_append.mpr ⟨hClean, h'.clean hb⟩, fun issue hb => ?_⟩
    obtain ⟨before, place, after, rfl, hPath, hFault, hMissing, hBefore⟩ := h'.first issue hb
    exact ⟨xs ++ before, place, after, (List.append_assoc ..).symm, hPath, hFault, hMissing,
      List.forall_mem_append.mpr ⟨fun p hp => (hClean p hp).passed _, hBefore⟩⟩
  | some i =>
    rw [Option.some_or]
    refine ⟨by simp, fun issue hSome => ?_⟩
    obtain ⟨before, place, after, rfl, hRest⟩ := h.first issue hSome
    exact ⟨before, place, after ++ ys, List.append_assoc .., hRest⟩

theorem under (h : Locates xs a) (step : String) :
    Locates (xs.map (Visit.under step)) (a.map (Issue.under step)) := by
  refine ⟨fun hNone => ?_, fun issue hSome => ?_⟩
  · exact List.forall_mem_map.mpr (h.clean (Option.map_eq_none_iff.mp hNone))
  · obtain ⟨i, hi, rfl⟩ := Option.map_eq_some_iff.mp hSome
    obtain ⟨before, place, after, rfl, hPath, hFault, hMissing, hBefore⟩ := h.first i hi
    refine ⟨before.map (Visit.under step), place.under step, after.map (Visit.under step), ?_, ?_, hFault,
      hMissing, List.forall_mem_map.mpr fun p hp => (hBefore p hp).under step⟩
    · rw [List.map_append, List.map_cons]
    · exact congrArg (step :: ·) hPath

end Locates

namespace Schema

open Visit (root under)

variable {s item : Schema} {v : Value}

/-- If the value itself fits, the places inside it decide. -/
theorem locates_of_fits {inner : List Visit} {report : Option Issue} (hFits : s.Fits v)
    (hVisits : s.visits v = root s v :: inner) (h : Locates inner report) :
    Locates (s.visits v) report := by
  refine ⟨fun hNone => ?_, fun issue hSome => ?_⟩
  · have hInner := h.clean hNone
    have hAdmits : s.Admits v := by
      rw [Admits, hVisits]
      exact List.forall_mem_cons.mpr ⟨Visit.fits_root.mpr hFits, fun p hp => (hInner p hp).fits⟩
    rw [hVisits]
    exact List.forall_mem_cons.mpr ⟨Visit.conforms_root.mpr hAdmits, hInner⟩
  · obtain ⟨before, place, after, rfl, hPath, hFault, hMissing, hBefore⟩ := h.first issue hSome
    have hRoot : (root s v).Passed issue.path := ⟨Visit.fits_root.mpr hFits, .inr List.nil_prefix⟩
    exact ⟨root s v :: before, place, after, hVisits, hPath, hFault, hMissing,
      List.forall_mem_cons.mpr ⟨hRoot, hBefore⟩⟩

/-- A value that does not fit is at fault itself. -/
theorem locates_of_not_fits {problem : Problem} (hFits : ¬s.Fits v) (hVisits : s.visits v = [root s v])
    (hProblem : problem ≠ .missing) : Locates (s.visits v) (here problem) := by
  refine ⟨by simp [here], fun issue hSome => ?_⟩
  cases hSome
  exact ⟨[], root s v, [], hVisits, rfl, mt Visit.fits_root.mp hFits, by simp [root, hProblem], by simp⟩

theorem locates_wrongType {expected : String} (hFits : ¬s.Fits v) (hVisits : s.visits v = [root s v]) :
    Locates (s.visits v) (wrongType expected v) :=
  locates_of_not_fits hFits hVisits (by simp)

/-- A condition that says whether the value fits. -/
theorem locates_ite {c : Prop} [Decidable c] {problem : Problem} (hIff : s.Fits v ↔ c)
    (hVisits : s.visits v = [root s v]) (hProblem : problem ≠ .missing) :
    Locates (s.visits v) (if c then none else here problem) := by
  split
  · next hc => exact locates_of_fits (hIff.mpr hc) hVisits .nil
  · next hc => exact locates_of_not_fits (mt hIff.mp hc) hVisits hProblem

theorem locates_scalar (v : Value) : Locates (visits .scalar v) (issue? .scalar v) := by
  have hOther (hText : ¬v.IsText) (hNumber : ¬v.IsNumber) : Locates (visits .scalar v) (here .noVariant) :=
    locates_of_not_fits (not_or.mpr ⟨hText, hNumber⟩) rfl (by simp)
  cases v with
  | string s => exact locates_of_fits (.inl ⟨s, rfl⟩) rfl .nil
  | number n =>
    cases n with
    | nan => exact hOther (by simp [Value.IsText]) (by simp [Value.IsNumber])
    | _ => exact locates_of_fits (.inr ⟨_, rfl, by simp⟩) rfl .nil
  | _ => exact hOther (by simp [Value.IsText]) (by simp [Value.IsNumber])

theorem fits_bit_number {n : Number} : Fits .bit (.number n) ↔ ∃ i, n.toInt? = some i ∧ 0 ≤ i := by
  simp [Fits, Value.IsBit, Value.IsOneOf]

theorem locates_bit (v : Value) : Locates (visits .bit v) (issue? .bit v) := by
  cases v with
  | number n =>
    cases hInt : n.toInt? with
    | none =>
      have hFits : ¬Fits .bit (.number n) := by simp [fits_bit_number, hInt]
      cases n with
      | nan => exact locates_of_not_fits hFits rfl (by simp)
      | _ =>
        simp only [issue?, bitIssue?, hInt]
        exact locates_of_not_fits hFits rfl (by simp)
    | some i =>
      have hFits : Fits .bit (.number n) ↔ ¬i < 0 := by simp [fits_bit_number, hInt]
      cases n with
      | nan => cases hInt
      | _ =>
        simp only [issue?, bitIssue?, hInt]
        rw [← ite_not]
        exact locates_ite hFits rfl (by simp)
  | string s =>
    simp only [issue?, bitIssue?]
    exact locates_ite (by simp [Fits, Value.IsBit, Value.IsOneOf]) rfl (by simp)
  | _ => exact locates_of_not_fits (by simp [Fits, Value.IsBit, Value.IsOneOf]) rfl (by simp)

/-- What is reported of entries or items, one after another. -/
theorem locates_flatMap (h : ∀ x, Locates (item.visits x) (item.issue? x))
    (children : List (String × Value)) :
    Locates (children.flatMap fun e => (item.visits e.2).map (under e.1))
      (children.findSome? fun e => (item.issue? e.2).map (Issue.under e.1)) := by
  induction children with
  | nil => exact .nil
  | cons e rest ih =>
    have hBoth := ((h e.2).under e.1).append ih
    rw [List.flatMap_cons, List.findSome?_cons]
    cases hHead : (item.issue? e.2).map (Issue.under e.1) with
    | none => rwa [hHead, Option.none_or] at hBoth
    | some issue => rwa [hHead, Option.some_or] at hBoth

theorem locates_fields {known : List (String × Bool × Schema)}
    (h : ∀ f ∈ known, ∀ x, Locates (f.2.2.visits x) (f.2.2.issue? x)) (entries : List (String × Value)) :
    Locates (fieldVisits known entries) (fieldIssue? known entries) := by
  induction known with
  | nil => exact .nil
  | cons f rest ih =>
    obtain ⟨name, required, schema⟩ := f
    obtain ⟨hSchema, hRest⟩ := List.forall_mem_cons.mp h
    replace ih := ih hRest
    cases hFound : Entries.get? entries name with
    | none =>
      simp only [fieldVisits, fieldIssue?, hFound]
      cases required with
      | false => exact ih
      | true =>
        -- The field itself is at fault, and none comes before it.
        refine ⟨by simp, fun issue hSome => ?_⟩
        cases hSome
        exact ⟨[], _, _, rfl, rfl, by simp [Visit.Fits], by simp, by simp⟩
    | some x =>
      have hBoth := ((hSchema x).under name).append ih
      simp only [fieldVisits, fieldIssue?, hFound]
      cases hField : schema.issue? x with
      | none => rwa [hField] at hBoth
      | some issue => rwa [hField] at hBoth

/-- Induction over schemas, with a hypothesis for each known field. -/
theorem nested_induction {motive : Schema → Prop}
    (text : motive .text) (filled : motive .filled) (containing : ∀ part, motive (.containing part))
    (number : motive .number) (flag : motive .flag) (choice : ∀ options, motive (.choice options))
    (scalar : motive .scalar) (bit : motive .bit)
    (list : ∀ item, motive item → motive (.list item))
    (record : ∀ item, motive item → motive (.record item))
    (fields : ∀ known, (∀ f ∈ known, motive f.2.2) → motive (.fields known))
    (orNull : ∀ schema, motive schema → motive (.orNull schema)) (s : Schema) : motive s :=
  @Schema.rec motive (fun known => ∀ f ∈ known, motive f.2.2) (fun f => motive f.2.2) (fun f => motive f.2)
    text filled containing number flag choice scalar bit list record fields orNull
    (fun _ hf => absurd hf List.not_mem_nil) (fun _ _ hHead hTail => List.forall_mem_cons.mpr ⟨hHead, hTail⟩)
    (fun _ _ h => h) (fun _ _ h => h) s

/-- **The issue of a value is that of the first place at fault**; without one every place conforms. -/
theorem issue?_locates (s : Schema) (v : Value) : Locates (s.visits v) (s.issue? v) := by
  induction s using nested_induction generalizing v with
  | text =>
    cases v with
    | string s => exact locates_of_fits ⟨s, rfl⟩ rfl .nil
    | _ => exact locates_wrongType (by simp [Fits, Value.IsText]) rfl
  | filled =>
    cases v with
    | string s =>
      rw [issue?, ← ite_not]
      exact locates_ite (by simp [Fits]) rfl (by simp)
    | _ => exact locates_wrongType (by simp [Fits]) rfl
  | containing part =>
    cases v with
    | string s =>
      rw [issue?]
      exact locates_ite (by simp [Fits]) rfl (by simp)
    | _ => exact locates_wrongType (by simp [Fits]) rfl
  | number =>
    cases v with
    | number n =>
      cases n with
      | nan => exact locates_wrongType (by simp [Fits, Value.IsNumber]) rfl
      | _ => exact locates_of_fits ⟨_, rfl, by simp⟩ rfl .nil
    | _ => exact locates_wrongType (by simp [Fits, Value.IsNumber]) rfl
  | flag =>
    cases v with
    | bool b => exact locates_of_fits ⟨b, rfl⟩ rfl .nil
    | _ => exact locates_wrongType (by simp [Fits]) rfl
  | choice options =>
    cases v with
    | string s =>
      rw [issue?]
      exact locates_ite (by simp [Fits, Value.IsOneOf]) rfl (by simp)
    | _ => exact locates_wrongType (by simp [Fits, Value.IsOneOf]) rfl
  | scalar => exact locates_scalar v
  | bit => exact locates_bit v
  | list item ih =>
    cases v with
    | array items =>
      have hItems := locates_flatMap ih (Value.array items).indexed
      rw [Value.indexed, List.findSome?_map] at hItems
      rw [issue?]
      exact locates_of_fits ⟨items, rfl⟩ rfl hItems
    | _ => exact locates_wrongType (by simp [Fits, Value.IsArray]) rfl
  | record item ih =>
    cases v with
    | object entries => exact locates_of_fits ⟨entries, rfl⟩ rfl (locates_flatMap ih entries)
    | _ => exact locates_wrongType (by simp [Fits, Value.IsObject]) rfl
  | fields known ih =>
    cases v with
    | object entries => exact locates_of_fits ⟨entries, rfl⟩ rfl (locates_fields ih entries)
    | _ => exact locates_wrongType (by simp [Fits, Value.IsObject]) rfl
  | orNull schema ih =>
    cases v with
    | null => exact locates_of_fits trivial rfl .nil
    | _ => exact locates_of_fits trivial rfl (ih _)

/-- Nothing is reported of a value that the schema admits, and of no other. -/
theorem issue?_eq_none_iff : s.issue? v = none ↔ s.Admits v := by
  have hFirst := issue?_locates s v
  constructor
  · intro hNone
    exact Visit.conforms_root.mp (hFirst.clean hNone _ (root_mem_visits s v))
  · intro hAdmits
    rw [Option.eq_none_iff_forall_ne_some]
    intro issue hSome
    obtain ⟨before, p, after, hVisits, -, hFault, -⟩ := hFirst.first issue hSome
    exact hFault (hAdmits p (by rw [hVisits]; exact List.mem_append_right _ List.mem_cons_self))

-- ---------------------------------------------------------------------------
-- Paths
-- ---------------------------------------------------------------------------

/-- The places at the known fields: a mandatory field that is missing, or what is at and inside a field. -/
theorem mem_fieldVisits {known : List (String × Bool × Schema)} {entries : List (String × Value)} {p : Visit} :
    p ∈ fieldVisits known entries ↔ ∃ f ∈ known,
      (Entries.get? entries f.1 = none ∧ f.2.1 = true ∧ p = ⟨[f.1], f.2.2, none⟩) ∨
      ∃ x, Entries.get? entries f.1 = some x ∧ ∃ q ∈ f.2.2.visits x, q.under f.1 = p := by
  induction known with
  | nil => simp [fieldVisits]
  | cons f rest ih =>
    obtain ⟨name, required, schema⟩ := f
    simp only [List.mem_cons, or_and_right, exists_or, exists_eq_left, ← ih]
    cases hFound : Entries.get? entries name with
    | none => cases required <;> simp [fieldVisits, hFound]
    | some x => simp [fieldVisits, hFound]

end Schema

namespace Value

variable {v : Value}

theorem map_snd_indexed (v : Value) : v.indexed.map Prod.snd = v.items := by
  rw [indexed, List.map_map]
  exact List.zipIdx_map_fst 0 v.items

theorem nodup_keys_indexed (v : Value) : (v.indexed.map Prod.fst).Nodup := by
  have hKeys : v.indexed.map Prod.fst = (v.items.zipIdx.map Prod.snd).map toString := by
    rw [indexed, List.map_map, List.map_map]
    rfl
  rw [hKeys, List.zipIdx_map_snd]
  exact List.Nodup.map toString_injective List.nodup_range'

/-- Entries and items have steps of their own: only an array has items, and only an object has entries. -/
theorem Keyed.nodup_steps (h : v.Keyed) : ((v.indexed ++ v.entries).map Prod.fst).Nodup := by
  cases h with
  | array _ => simpa [entries] using nodup_keys_indexed (.array _)
  | object hNodup _ => exact hNodup
  | _ => exact List.nodup_nil

theorem Keyed.of_mem_steps (h : v.Keyed) {e : String × Value} (he : e ∈ v.indexed ++ v.entries) :
    e.2.Keyed := by
  rcases List.mem_append.mp he with he | he
  · obtain ⟨⟨x, i⟩, hx, rfl⟩ := List.mem_map.mp he
    cases h with
    | array hItems => exact hItems x (List.fst_mem_of_mem_zipIdx hx)
    | _ => cases hx
  · exact h.of_mem_entries he

/-- A path goes on from what its first step leads to. -/
theorem at?_cons_of_mem (h : v.Keyed) {e : String × Value} (he : e ∈ v.indexed ++ v.entries)
    (path : List String) : v.at? (e.1 :: path) = e.2.at? path := by
  rw [at?, (Entries.get?_eq_some_iff h.nodup_steps).mpr he, Option.bind_some]

end Value

namespace Schema

open Visit (root under)

variable {s item : Schema} {v : Value} {p : Visit}

/-- The paths of places inside entries or items. -/
theorem at?_of_mem_flatMap {children : List (String × Value)} (hKeyed : v.Keyed)
    (hItem : ∀ {x : Value} {q : Visit}, x.Keyed → q ∈ item.visits x → x.at? q.path = q.found)
    (hChildren : children ⊆ v.indexed ++ v.entries)
    (hp : p ∈ children.flatMap fun e => (item.visits e.2).map (under e.1)) :
    v.at? p.path = p.found := by
  obtain ⟨e, he, hp⟩ := List.mem_flatMap.mp hp
  obtain ⟨q, hq, rfl⟩ := List.mem_map.mp hp
  calc v.at? (e.1 :: q.path) = e.2.at? q.path := Value.at?_cons_of_mem hKeyed (hChildren he) q.path
    _ = q.found := hItem (hKeyed.of_mem_steps (hChildren he)) hq

/-- **The path of a place leads to it**, and to nothing if the place is a missing field. Without distinct keys
a path could end at another entry. -/
theorem at?_of_mem_visits (hKeyed : v.Keyed) (hp : p ∈ s.visits v) : v.at? p.path = p.found := by
  induction s using nested_induction generalizing v p with
  | list item ih =>
    rw [visits, List.mem_cons] at hp
    rcases hp with rfl | hp
    · rfl
    · exact at?_of_mem_flatMap hKeyed ih (List.subset_append_left ..) hp
  | record item ih =>
    rw [visits, List.mem_cons] at hp
    rcases hp with rfl | hp
    · rfl
    · exact at?_of_mem_flatMap hKeyed ih (List.subset_append_right ..) hp
  | fields known ih =>
    cases v with
    | object entries =>
      rw [visits, List.mem_cons, mem_fieldVisits] at hp
      rcases hp with rfl | ⟨f, hf, ⟨hMissing, -, rfl⟩ | ⟨x, hx, q, hq, rfl⟩⟩
      · rfl
      · exact congrArg (Option.bind · _) hMissing
      · have hMem : (f.1, x) ∈ (Value.object entries).entries := Entries.mem_of_get? hx
        calc (Value.object entries).at? (f.1 :: q.path) = x.at? q.path :=
              Value.at?_cons_of_mem hKeyed (List.mem_append_right _ hMem) q.path
          _ = q.found := ih f hf (hKeyed.of_mem_entries hMem) hq
    | _ =>
      cases List.mem_singleton.mp hp
      rfl
  | orNull schema ih =>
    cases v with
    | null =>
      cases List.mem_singleton.mp hp
      rfl
    | _ =>
      rcases List.mem_cons.mp hp with rfl | hp
      · rfl
      · exact ih hKeyed hp
  | _ =>
    cases List.mem_singleton.mp hp
    rfl

-- ---------------------------------------------------------------------------
-- What a schema admits
-- ---------------------------------------------------------------------------

/-- A schema for what has nothing inside admits what fits. -/
theorem admits_of_visits (hVisits : ∀ v, s.visits v = [root s v]) : s.Admits = s.Fits := by
  funext v
  rw [Admits, hVisits, List.forall_mem_singleton, Visit.fits_root]

@[simp] theorem admits_text : Schema.text.Admits = Value.IsText := admits_of_visits fun _ => rfl
@[simp] theorem admits_number : Schema.number.Admits = Value.IsNumber := admits_of_visits fun _ => rfl
@[simp] theorem admits_scalar : Schema.scalar.Admits = Value.IsScalar := admits_of_visits fun _ => rfl
@[simp] theorem admits_bit : Schema.bit.Admits = Value.IsBit := admits_of_visits fun _ => rfl
@[simp] theorem admits_choice (options : List String) :
    (Schema.choice options).Admits = Value.IsOneOf options := admits_of_visits fun _ => rfl

/-- The places inside entries or items fit if the item's schema admits all of them. -/
theorem fits_flatMap {children : List (String × Value)} :
    (∀ p ∈ children.flatMap fun e => (item.visits e.2).map (under e.1), p.Fits) ↔
      ∀ e ∈ children, item.Admits e.2 := by
  simp only [List.forall_mem_flatMap, List.forall_mem_map]
  rfl

@[simp] theorem admits_list (item : Schema) : (Schema.list item).Admits = Value.IsArrayOf item.Admits := by
  funext v
  have hItems : (∀ e ∈ v.indexed, item.Admits e.2) ↔ ∀ x ∈ v.items, item.Admits x := by
    rw [← v.map_snd_indexed, List.forall_mem_map]
  rw [Admits, visits, List.forall_mem_cons, Visit.fits_root, fits_flatMap, hItems]
  rfl

@[simp] theorem admits_record (item : Schema) :
    (Schema.record item).Admits = Value.IsRecordOf item.Admits := by
  funext v
  rw [Admits, visits, List.forall_mem_cons, Visit.fits_root, fits_flatMap]
  rfl

/-- The places at and inside the known fields fit if each field is as it has to be. -/
theorem fits_fieldVisits {known : List (String × Bool × Schema)} {entries : List (String × Value)} :
    (∀ p ∈ fieldVisits known entries, p.Fits) ↔ ∀ f ∈ known,
      if f.2.1 then (Value.object entries).Has f.1 f.2.2.Admits
      else (Value.object entries).MayHave f.1 f.2.2.Admits := by
  simp only [mem_fieldVisits]
  constructor
  · intro h f hf
    have hAdmits : ∀ x, Entries.get? entries f.1 = some x → f.2.2.Admits x :=
      fun x hx q hq => h (q.under f.1) ⟨f, hf, .inr ⟨x, hx, q, hq, rfl⟩⟩
    split
    · next hRequired =>
      cases hFound : Entries.get? entries f.1 with
      | none =>
        obtain ⟨x, hx, -⟩ := h _ ⟨f, hf, .inl ⟨hFound, hRequired, rfl⟩⟩
        cases hx
      | some x => exact ⟨x, hFound, hAdmits x hFound⟩
    · exact hAdmits
  · rintro h p ⟨f, hf, ⟨hMissing, hRequired, rfl⟩ | ⟨x, hx, q, hq, rfl⟩⟩
    · have hField := h f hf
      rw [if_pos hRequired] at hField
      obtain ⟨x, hx, -⟩ := hField
      cases hMissing.symm.trans hx
    · have hField := h f hf
      split at hField
      · obtain ⟨y, hy, hAdmits⟩ := hField
        cases hx.symm.trans hy
        exact hAdmits q hq
      · exact hField x hx q hq

theorem admits_fields (known : List (String × Bool × Schema)) (v : Value) :
    (Schema.fields known).Admits v ↔ v.IsObject ∧ ∀ f ∈ known,
      if f.2.1 then v.Has f.1 f.2.2.Admits else v.MayHave f.1 f.2.2.Admits := by
  cases v with
  | object entries =>
    rw [Admits, visits, List.forall_mem_cons, Visit.fits_root, fits_fieldVisits]
    rfl
  | _ =>
    refine ⟨fun hAdmits => ?_, fun h => ?_⟩
    · cases Visit.fits_root.mp (hAdmits _ (root_mem_visits ..)) with | intro _ h => cases h
    · cases h.1 with | intro _ h => cases h

end Schema

end ProbeAtlas
