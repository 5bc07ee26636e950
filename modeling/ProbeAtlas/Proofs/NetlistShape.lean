import Mathlib.Tactic.MkIffOfInductiveProp
import ProbeAtlas.Proofs.SchemaFaults

/-!
# ProbeAtlas — what is accepted as a netlist

The schema of netlists is a table of fields. `NetlistFormat.IsNetlist` says which values are netlists, kind
by kind, and the table admits exactly these. So a JSON text gives a design iff it denotes a netlist. From
any other text comes the path to the first place at fault.

Main results: `NetlistFormat.admits_netlistSchema` and `Design.parse_validates`.
-/

namespace ProbeAtlas

namespace NetlistFormat

open Value

@[mk_iff] structure IsPort (v : Value) : Prop where
  object : v.IsObject
  direction : v.Has "direction" (IsOneOf ["input", "output", "inout"])
  bits : v.Has "bits" (IsArrayOf IsBit)

@[mk_iff] structure IsCell (v : Value) : Prop where
  object : v.IsObject
  type : v.Has "type" IsText
  hideName : v.MayHave "hide_name" IsNumber
  parameters : v.MayHave "parameters" (IsRecordOf IsScalar)
  connections : v.MayHave "connections" (IsRecordOf (IsArrayOf IsBit))

@[mk_iff] structure IsNetname (v : Value) : Prop where
  object : v.IsObject
  bits : v.Has "bits" (IsArrayOf IsBit)
  hideName : v.MayHave "hide_name" IsNumber
  upto : v.MayHave "upto" IsNumber

@[mk_iff] structure IsModule (v : Value) : Prop where
  object : v.IsObject
  attributes : v.MayHave "attributes" (IsRecordOf IsScalar)
  parameters : v.MayHave "parameter_default_values" (IsRecordOf IsScalar)
  ports : v.MayHave "ports" (IsRecordOf IsPort)
  cells : v.MayHave "cells" (IsRecordOf IsCell)
  netnames : v.MayHave "netnames" (IsRecordOf IsNetname)

/-- The shape of a netlist. Fields that may be missing hold no `null` either. -/
@[mk_iff] structure IsNetlist (v : Value) : Prop where
  object : v.IsObject
  creator : v.MayHave "creator" IsText
  modules : v.Has "modules" (IsRecordOf IsModule)

@[simp] theorem admits_portSchema : portSchema.Admits = IsPort := by
  funext v
  simp [portSchema, required, Schema.admits_fields, isPort_iff]

@[simp] theorem admits_cellSchema : cellSchema.Admits = IsCell := by
  funext v
  simp [cellSchema, required, optional, Schema.admits_fields, isCell_iff]

@[simp] theorem admits_netnameSchema : netnameSchema.Admits = IsNetname := by
  funext v
  simp [netnameSchema, required, optional, Schema.admits_fields, isNetname_iff]

@[simp] theorem admits_moduleSchema : moduleSchema.Admits = IsModule := by
  funext v
  simp [moduleSchema, optional, Schema.admits_fields, isModule_iff]

/-- **The table of fields admits exactly the netlists.** -/
theorem admits_netlistSchema : netlistSchema.Admits = IsNetlist := by
  funext v
  simp [netlistSchema, required, optional, Schema.admits_fields, isNetlist_iff]

end NetlistFormat

namespace Design

open NetlistFormat

variable {text : String} {v : Value}

/-- A text that is JSON is judged by the schema alone. -/
theorem parse_of_read (choice : TopChoice) (hRead : Json.read? text = some v) :
    ((∃ d, parse choice text = .ok d) ↔ netlistSchema.issue? v = none) ∧
    ∀ issue, parse choice text = .error (.invalid issue) ↔ netlistSchema.issue? v = some issue := by
  rw [parse, hRead]
  dsimp only
  rw [ofValue]
  split
  · next issue hIssue => simp [hIssue]
  · next hNone => simp [hNone]

/-- **A JSON text gives a design iff its value is a netlist, and else the first fault is pointed at.** The
issue names a place in the value where a mandatory field is missing or a value of the wrong kind is found.
Whatever is visited before is there and of the right kind, and so is all that is inside it, unless the place
itself is. The value is the one that was read: two keys of an object that differ only in halves of pairs that
stand alone are one key there (`Json.charOfUnit`). -/
theorem parse_validates (choice : TopChoice) (hRead : Json.read? text = some v) :
    ((∃ d, parse choice text = .ok d) ↔ IsNetlist v) ∧
    ((∃ issue, parse choice text = .error (.invalid issue)) ↔ ¬IsNetlist v) ∧
    ∀ issue, parse choice text = .error (.invalid issue) →
      ∃ before place after, netlistSchema.visits v = before ++ place :: after ∧
        place.path = issue.path ∧ v.at? issue.path = place.found ∧
        (issue.problem = .missing ↔ place.found = none) ∧
        (∀ x, place.found = some x → ¬place.schema.Fits x) ∧
        ∀ p ∈ before, ∃ x, v.at? p.path = some x ∧ p.schema.Fits x ∧
          (p.schema.Admits x ∨ p.path <+: issue.path) := by
  have hValid : netlistSchema.issue? v = none ↔ IsNetlist v := by
    rw [Schema.issue?_eq_none_iff, admits_netlistSchema]
  have hLeads {p : Visit} (hp : p ∈ netlistSchema.visits v) : v.at? p.path = p.found :=
    Schema.at?_of_mem_visits (Json.read?_keyed hRead) hp
  obtain ⟨hOk, hInvalid⟩ := parse_of_read choice hRead
  refine ⟨hOk.trans hValid, ?_, fun issue hIssue => ?_⟩
  · simp only [hInvalid]
    rw [← Option.ne_none_iff_exists', ne_eq, hValid]
  · obtain ⟨before, place, after, hVisits, hPath, hFault, hMissing, hBefore⟩ :=
      (Schema.issue?_locates netlistSchema v).first issue ((hInvalid issue).mp hIssue)
    refine ⟨before, place, after, hVisits, hPath, ?_, hMissing, fun x hx hFits => hFault ⟨x, hx, hFits⟩,
      fun p hp => ?_⟩
    · rw [← hPath]
      exact hLeads (by rw [hVisits]; exact List.mem_append_right _ List.mem_cons_self)
    · obtain ⟨⟨x, hx, hFits⟩, hWhole⟩ := hBefore p hp
      refine ⟨x, (hLeads ?_).trans hx, hFits, hWhole.imp_left ?_⟩
      · rw [hVisits]
        exact List.mem_append_left _ hp
      · rintro ⟨y, hy, hAdmits⟩
        cases hx.symm.trans hy
        exact hAdmits

end Design

/-- A netlist with a net that has no bits and, further on, a cell at a negative net. -/
def faultyText : String :=
  "\x7b\"modules\":\x7b\"m\":\x7b\"netnames\":\x7b\"n\":\x7b\x7d\x7d,\"cells\":\x7b\"u\":\x7b\"type\":" ++
    "\"INV\",\"connections\":\x7b\"A\":[2,-1]\x7d\x7d\x7d\x7d\x7d\x7d"

def faultyPath : List String := ["modules", "m", "cells", "u", "connections", "A", "1"]

/-- The cells of a module are visited before its nets, so the negative net is what is reported. -/
theorem faultyText_refused : ∃ v, Json.read? faultyText = some v ∧
    Design.parse {} faultyText = .error (.invalid ⟨faultyPath, .negative⟩) ∧ ¬NetlistFormat.IsNetlist v ∧
    ∃ before place after x, NetlistFormat.netlistSchema.visits v = before ++ place :: after ∧
      place.path = faultyPath ∧ v.at? faultyPath = some x ∧ ¬place.schema.Fits x ∧
      ∀ p ∈ before, ∃ y, v.at? p.path = some y ∧ p.schema.Fits y ∧
        (p.schema.Admits y ∨ p.path <+: faultyPath) := by
  have hParse : Design.parse {} faultyText = .error (.invalid ⟨faultyPath, .negative⟩) := by decide +kernel
  have hJson : Json.read? faultyText ≠ none := fun hNone => by simp [Design.parse, hNone] at hParse
  obtain ⟨v, hRead⟩ := Option.ne_none_iff_exists'.mp hJson
  obtain ⟨-, hInvalid, hFirst⟩ := Design.parse_validates {} hRead
  obtain ⟨before, place, after, hVisits, hPath, hFound, hMissing, hFault, hBefore⟩ := hFirst _ hParse
  have hThere : place.found ≠ none := mt hMissing.mpr (by simp)
  obtain ⟨x, hx⟩ := Option.ne_none_iff_exists'.mp hThere
  exact ⟨v, hRead, hParse, hInvalid.mp ⟨_, hParse⟩, before, place, after, x, hVisits, hPath, hFound.trans hx,
    hFault x hx, hBefore⟩

end ProbeAtlas
