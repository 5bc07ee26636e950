import ProbeAtlas.Json.Reader
import ProbeAtlas.Netlist.Top
import ProbeAtlas.Param.Literal
import ProbeAtlas.Schema

/-!
# ProbeAtlas — the netlist format

A netlist is a JSON object whose `modules` field maps names to modules. The text is read, checked
against `netlistSchema`, and only then turned into a design, so the functions below that take values
apart meet the shapes which the schema admits and pass over any other.
-/

namespace ProbeAtlas

/-- Why a netlist text gives no design. -/
inductive NetlistError where
  | notJson
  | invalid (issue : Issue)
deriving DecidableEq, Repr

def NetlistError.message : NetlistError → String
  | .notJson => "The netlist is not JSON"
  | .invalid issue => "Invalid netlist JSON at " ++ issue.text

namespace NetlistFormat

open Schema

def required (name : String) (schema : Schema) : String × Bool × Schema :=
  (name, true, schema)

def optional (name : String) (schema : Schema) : String × Bool × Schema :=
  (name, false, schema)

def portSchema : Schema :=
  .fields [required "direction" (.choice ["input", "output", "inout"]), required "bits" (.list .bit)]

def cellSchema : Schema :=
  .fields
    [required "type" .text, optional "hide_name" .number, optional "parameters" (.record .scalar),
      optional "connections" (.record (.list .bit))]

def netnameSchema : Schema :=
  .fields [required "bits" (.list .bit), optional "hide_name" .number, optional "upto" .number]

def moduleSchema : Schema :=
  .fields
    [optional "attributes" (.record .scalar), optional "parameter_default_values" (.record .scalar),
      optional "ports" (.record portSchema), optional "cells" (.record cellSchema),
      optional "netnames" (.record netnameSchema)]

def netlistSchema : Schema :=
  .fields [optional "creator" .text, required "modules" (.record moduleSchema)]

/-! ## From values to modules -/

/-- The entries of a record field; a missing record has none. -/
def recordOf (v : Value) (field : String) : List (String × Value) :=
  ((v.field? field).map Value.entries).getD [] |>.filter fun e => e.1 ≠ Entries.reservedKey

def bit? : Value → Option Bit
  | .number n => n.toInt?.map fun i => .net i.toNat
  | .string s => (Level.ofText? s).map .const
  | _ => none

def bitsOf (v : Value) : List Bit :=
  v.items.filterMap bit?

/-- The bits in a field of a value. -/
def bitField (v : Value) (field : String) : List Bit :=
  ((v.field? field).map bitsOf).getD []

/-- Whether a number field is present and not zero. -/
def flagged (v : Value) (field : String) : Bool :=
  ((v.field? field).bind Value.number?).any fun n => !n.isZero

/-- A scalar as text. -/
def scalarText : Value → String
  | .string s => s
  | .number n => n.text
  | _ => ""

/-- A scalar as the literal it stands for. -/
def scalarLiteral : Value → String
  | .string s => Literal.ofText s
  | .number n => Literal.ofNumber n
  | _ => ""

def directionOf (v : Value) : Direction :=
  match (v.field? "direction").bind Value.string? with
  | some "input" => .input
  | some "output" => .output
  | _ => .inout

def portOf (v : Value) : Port :=
  ⟨directionOf v, bitField v "bits"⟩

def cellOf (name : String) (v : Value) : Cell :=
  { name
    type := ((v.field? "type").bind Value.string?).getD ""
    connections := (recordOf v "connections").map fun (port, bits) => (port, bitsOf bits) }

/-- A net is hidden if the netlist says so or if its name is a generated one. -/
def netnameOf (name : String) (v : Value) : NetName :=
  { name
    bits := bitField v "bits"
    hidden := flagged v "hide_name" || name.toList.head? == some '$'
    upto := flagged v "upto" }

/-- The attribute that hides the contents of a module. -/
def blackboxAttribute : String := "blackbox"

def moduleOf (name : String) (v : Value) : Module :=
  let attributes := (recordOf v "attributes").map fun (key, x) => (key, scalarText x)
  { name
    attributes
    parameters := (recordOf v "parameter_default_values").map fun (key, x) => (key, scalarLiteral x)
    ports := (recordOf v "ports").map fun (port, x) => (port, portOf x)
    cells := (recordOf v "cells").map fun (cell, x) => cellOf cell x
    netnames := (recordOf v "netnames").map fun (net, x) => netnameOf net x
    blackbox := (Entries.get? attributes blackboxAttribute).any fun s => s.toList.contains '1' }

end NetlistFormat

/-- How the top module is chosen: by name, or else by depth or by its mark. -/
structure TopChoice where
  name : Option String := none
  deepest : Bool := false
deriving DecidableEq, Repr

/-- The design's top module under a choice. -/
def Design.chooseTop (d : Design) (choice : TopChoice) : Option String :=
  match choice.name with
  | some name => if (d.find? name).isSome then some name else none
  | none => if choice.deepest then d.deepestRoot? else d.markedTop?

/-- The design that a data tree describes. -/
def Design.ofValue (choice : TopChoice) (v : Value) : Except NetlistError Design :=
  match NetlistFormat.netlistSchema.issue? v with
  | some issue => .error (.invalid issue)
  | none =>
    let modules := (NetlistFormat.recordOf v "modules").map fun (name, x) => NetlistFormat.moduleOf name x
    let design : Design := { modules, top := none, flattened := false }
    .ok { design with top := design.chooseTop choice }

/-- The design that a netlist text describes. -/
def Design.parse (choice : TopChoice) (text : String) : Except NetlistError Design :=
  match Json.read? text with
  | none => .error .notJson
  | some v => Design.ofValue choice v

end ProbeAtlas
