import ProbeAtlas.Text.Search
import ProbeAtlas.Value.Basic

/-!
# ProbeAtlas — schemas of data

A schema says which values a data text may hold at a place. `Schema.issue?` finds the first place that
violates it: fields are visited in the order in which the schema lists them, entries and items in
their own order. Fields that a schema does not list are ignored.
-/

namespace ProbeAtlas

/-- What a place of a data tree has to hold. -/
inductive Schema where
  /-- Any string. -/
  | text
  /-- A string that is not empty. -/
  | filled
  /-- A string with the given part. -/
  | containing (part : String)
  | number
  | flag
  /-- One of the given strings. -/
  | choice (options : List String)
  /-- A string or a number. -/
  | scalar
  /-- A net number or one of the four constant drivers. -/
  | bit
  | list (item : Schema)
  /-- An object of any keys, all of whose values follow one schema. -/
  | record (item : Schema)
  /-- An object with these fields; a field that is not required may be missing. -/
  | fields (known : List (String × Bool × Schema))
  | orNull (schema : Schema)

/-- What is wrong with a value. -/
inductive Problem where
  | missing
  | wrongType (expected received : String)
  | notAnOption (options : List String) (received : String)
  | noVariant
  | notInteger
  | negative
  | tooShort
  | lacks (part : String)
deriving DecidableEq, Repr

/-- The options of a choice, quoted and set apart by bars. -/
def optionList (options : List String) : String :=
  " | ".intercalate (options.map fun o => "'" ++ o ++ "'")

def Problem.message : Problem → String
  | .missing => "Required"
  | .wrongType expected received => s!"Expected {expected}, received {received}"
  | .notAnOption options received =>
    "Invalid enum value. Expected " ++ optionList options ++ ", received '" ++ received ++ "'"
  | .noVariant => "Invalid input"
  | .notInteger => "Expected integer, received float"
  | .negative => "Number must be greater than or equal to 0"
  | .tooShort => "String must contain at least 1 character(s)"
  | .lacks part => "Invalid input: must include \"" ++ part ++ "\""

/-- A problem and the path to the place that has it, from the root down. -/
structure Issue where
  path : List String
  problem : Problem
deriving DecidableEq, Repr

namespace Issue

/-- The issue as it is seen from one step further up. -/
def under (step : String) (i : Issue) : Issue :=
  { i with path := step :: i.path }

/-- The path and the problem; the root has a name of its own. -/
def text (i : Issue) : String :=
  let path := ".".intercalate i.path
  (if path = "" then "<root>" else path) ++ ": " ++ i.problem.message

end Issue

namespace Schema

/-- A problem at the place itself. -/
def here (problem : Problem) : Option Issue :=
  some ⟨[], problem⟩

def wrongType (expected : String) (v : Value) : Option Issue :=
  here (.wrongType expected v.typeName)

/-- A net number is whole and not negative; wholeness is looked at first. -/
def bitIssue? : Value → Option Issue
  | .number .nan => here .noVariant
  | .number n =>
    match n.toInt? with
    | none => here .notInteger
    | some i => if i < 0 then here .negative else none
  | .string s => if s ∈ ["0", "1", "x", "z"] then none else here .noVariant
  | _ => here .noVariant

mutual

/-- The first violation in a value, `none` if it follows the schema. -/
def issue? : Schema → Value → Option Issue
  | .text, v =>
    match v with
    | .string _ => none
    | v => wrongType "string" v
  | .filled, v =>
    match v with
    | .string s => if s.isEmpty then here .tooShort else none
    | v => wrongType "string" v
  | .containing part, v =>
    match v with
    | .string s => if hasPart part s then none else here (.lacks part)
    | v => wrongType "string" v
  | .number, v =>
    match v with
    | .number .nan => wrongType "number" v
    | .number _ => none
    | v => wrongType "number" v
  | .flag, v =>
    match v with
    | .bool _ => none
    | v => wrongType "boolean" v
  | .choice options, v =>
    match v with
    | .string s => if s ∈ options then none else here (.notAnOption options s)
    | v => wrongType (optionList options) v
  | .scalar, v =>
    match v with
    | .string _ => none
    | .number .nan => here .noVariant
    | .number _ => none
    | _ => here .noVariant
  | .bit, v => bitIssue? v
  | .list item, v =>
    match v with
    | .array items =>
      items.zipIdx.findSome? fun (x, i) => (issue? item x).map (Issue.under (toString i))
    | v => wrongType "array" v
  | .record item, v =>
    match v with
    | .object entries => entries.findSome? fun (k, x) => (issue? item x).map (Issue.under k)
    | v => wrongType "object" v
  | .fields known, v =>
    match v with
    | .object entries => fieldIssue? known entries
    | v => wrongType "object" v
  | .orNull schema, v =>
    match v with
    | .null => none
    | v => issue? schema v

/-- The first violation among the known fields of an object. -/
def fieldIssue? : List (String × Bool × Schema) → List (String × Value) → Option Issue
  | [], _ => none
  | (name, required, schema) :: rest, entries =>
    match Entries.get? entries name with
    | none => if required then some ⟨[name], .missing⟩ else fieldIssue? rest entries
    | some v =>
      match issue? schema v with
      | some i => some (i.under name)
      | none => fieldIssue? rest entries

end

end Schema

end ProbeAtlas
