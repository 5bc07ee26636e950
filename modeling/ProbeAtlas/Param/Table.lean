import ProbeAtlas.Fault
import ProbeAtlas.Log
import ProbeAtlas.Value.Entries

/-!
# ProbeAtlas — parameter tables

A candidate is described by slots, each a key and a kind. Its parameters are assigned one after
another; a name that has no slot is passed over, and the first literal that cannot be assigned
discards the candidate. At the end every slot has to hold a value.
-/

namespace ProbeAtlas

/-- A parameter that a candidate must have. -/
structure Slot where
  key : String
  kind : ParamKind
deriving DecidableEq, Repr

/-- The slots of a candidate and the values assigned to them, in the order of assignment. -/
structure ParamTable where
  slots : List Slot
  values : List (String × ParamValue)
deriving DecidableEq, Repr

/-- How many interfaces a subsystem has. -/
def interfaceCount : Nat := 15

namespace Slot

def baseSlots : List Slot :=
  [⟨"IP_TYPE", .text⟩, ⟨"IP_VERSION", .word32⟩, ⟨"IP_ID", .word32⟩]

def coreSlots : List Slot :=
  baseSlots ++
    [⟨"AXI_ADDR_WIDTH", .word32⟩, ⟨"AXI_DATA_WIDTH", .word32⟩, ⟨"MEM_DEPTH", .word32⟩,
      ⟨"NO_OF_PROBES", .word32⟩, ⟨"NO_OF_TRIGGER_INPUTS", .word32⟩, ⟨"INDEX", .word32⟩]

/-- The key of the width of the probe at a position. -/
def widthKey (i : Nat) : String := s!"Probe{i + 1}_Width"

/-- The key of the base address of the interface at a position. -/
def addressKey (i : Nat) : String := s!"IF{i + 1}_BaseAddress"

/-- The key of the packed probes of the interface at a position. -/
def packedKey (i : Nat) : String := s!"IF{i + 1}_Probes"

def subsystemSlots : List Slot :=
  baseSlots ++
    [⟨"Mode", .text⟩, ⟨"Axi_Type", .text⟩, ⟨"No_AXI_Bus", .word32⟩, ⟨"Cores", .word32⟩,
      ⟨"No_Probes", .word32⟩, ⟨"Probes_Sum", .word32⟩] ++
    (List.range interfaceCount).flatMap fun i =>
      [⟨widthKey i, .word32⟩, ⟨addressKey i, .word32⟩, ⟨packedKey i, .word64⟩]

/-- The kind of a key; of several slots with one key the last counts. -/
def kindOf? (slots : List Slot) (key : String) : Option ParamKind :=
  (slots.reverse.find? fun s => s.key == key).map Slot.kind

end Slot

namespace ParamTable

open Logged (post postAll)

/-- Assigns the parameters in order; `none` once one of them cannot be assigned. -/
def assign (slots : List Slot) :
    List (String × String) → List (String × ParamValue) → Logged (Option (List (String × ParamValue)))
  | [], values => pure (some values)
  | (name, literal) :: rest, values =>
    match Slot.kindOf? slots name with
    | none => do
      post 1 s!"Ignore param {name}"
      assign slots rest values
    | some kind =>
      if (Entries.get? values name).isSome then do
        post 1 s!"Error: Param {name} had been assigned"
        return none
      else
        match ParamValue.decode? kind literal with
        | none => do
          post 1 s!"Error: Param {name} value {literal} does not follow {kind.format} format"
          return none
        | some value => do
          post 1 s!"Param {name} - {value.describe}"
          assign slots rest (values ++ [(name, value)])

/-- The keys of the slots that hold no value. -/
def missing (slots : List Slot) (values : List (String × ParamValue)) : List String :=
  (slots.filter fun s => (Entries.get? values s.key).isNone).map Slot.key

/-- The table of a candidate, `none` if the candidate has to be discarded. -/
def decode? (slots : List Slot) (params : List (String × String)) : Logged (Option ParamTable) := do
  match ← assign slots params [] with
  | none => return none
  | some values =>
    let keys := missing slots values
    postAll 1 (keys.map fun key => s!"Error: missing parameter {key}")
    return if keys.isEmpty then some ⟨slots, values⟩ else none

def get? (t : ParamTable) (key : String) : Option ParamValue :=
  Entries.get? t.values key

/-- The short word under a key. -/
def word32 (t : ParamTable) (key : String) : Except Fault Nat :=
  match t.get? key with
  | some (.word32 n) => .ok n
  | _ => .error (.notDecoded key .word32)

/-- The long word under a key. -/
def word64 (t : ParamTable) (key : String) : Except Fault Nat :=
  match t.get? key with
  | some (.word64 n) => .ok n
  | _ => .error (.notDecoded key .word64)

/-- The text under a key. -/
def text (t : ParamTable) (key : String) : Except Fault String :=
  match t.get? key with
  | some (.text s) => .ok s
  | _ => .error (.notDecoded key .text)

/-- The values in the order of the slots, as the entries of an object. -/
def entries (t : ParamTable) : List (String × ParamValue) :=
  Entries.ofPairs (t.slots.filterMap fun s =>
    if s.key = Entries.reservedKey then none else (t.get? s.key).map fun v => (s.key, v))

end ParamTable

end ProbeAtlas
