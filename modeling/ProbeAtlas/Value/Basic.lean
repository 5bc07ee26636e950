import ProbeAtlas.Number.Basic
import ProbeAtlas.Value.Entries

/-!
# ProbeAtlas — data values

The tree of data that a netlist text or a rules text denotes. Dates and the undefined number arise
from rules texts only.
-/

namespace ProbeAtlas

/-- A tree of data. -/
inductive Value where
  | null
  | bool (b : Bool)
  | number (n : Number)
  | string (s : String)
  | array (items : List Value)
  | object (entries : List (String × Value))
  /-- A point in time, as it is written. -/
  | date (text : String)

namespace Value

/-- The word for the type of a value in messages. -/
def typeName : Value → String
  | .null => "null"
  | .bool _ => "boolean"
  | .number .nan => "nan"
  | .number _ => "number"
  | .string _ => "string"
  | .array _ => "array"
  | .object _ => "object"
  | .date _ => "date"

/-- The entries of an object, none for any other value. -/
def entries : Value → List (String × Value)
  | .object es => es
  | _ => []

/-- The items of an array, none for any other value. -/
def items : Value → List Value
  | .array vs => vs
  | _ => []

/-- The value of a field of an object. -/
def field? (v : Value) (name : String) : Option Value :=
  Entries.get? v.entries name

def string? : Value → Option String
  | .string s => some s
  | _ => none

def bool? : Value → Option Bool
  | .bool b => some b
  | _ => none

def number? : Value → Option Number
  | .number n => some n
  | _ => none

/-- A whole number as a value. -/
def ofInt (i : Int) : Value :=
  .number (.ofInt i)

def ofNat (n : Nat) : Value :=
  .number (.ofNat n)

/-- A list of texts as a value. -/
def ofStrings (texts : List String) : Value :=
  .array (texts.map .string)

end Value

end ProbeAtlas
