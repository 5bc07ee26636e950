import ProbeAtlas.Schema

/-!
# ProbeAtlas — rules

The rules say which modules are debug cores and subsystems, how probe ports are named, and where the
report goes. Every rule has a default. A rules text is a data tree that follows `Rules.schema`.
-/

namespace ProbeAtlas

/-- What an analysis goes by. -/
structure Rules where
  ipType : String := "OCLA"
  coreModule : String := "ocla"
  subsystemModule : String := "ocla_debug_subsystem"
  /-- The name of a probe port; the placeholder stands for the number of the probe. -/
  probePort : String := "probe_\x7bn\x7d"
  output : String := "ocla.json"
  verbose : Bool := false
deriving DecidableEq, Repr

namespace Rules

/-- What stands for the number of a probe in the name of its port. -/
def placeholder : String := "\x7bn\x7d"

def schema : Schema :=
  .orNull <| .fields
    [("ip_type", false, .filled),
      ("modules", false, .fields [("core", false, .filled), ("subsystem", false, .filled)]),
      ("probe_port", false, .containing placeholder),
      ("output", false, .filled),
      ("verbose", false, .flag)]

/-- The text in a field, or a default. -/
def textField (v : Value) (name default : String) : String :=
  ((v.field? name).bind Value.string?).getD default

/-- The rules that a data tree gives; what it leaves out keeps its default. -/
def ofValue (v : Value) : Except Issue Rules :=
  match schema.issue? v with
  | some issue => .error issue
  | none =>
    let defaults : Rules := {}
    let modules := (v.field? "modules").getD .null
    .ok
      { ipType := textField v "ip_type" defaults.ipType
        coreModule := textField modules "core" defaults.coreModule
        subsystemModule := textField modules "subsystem" defaults.subsystemModule
        probePort := textField v "probe_port" defaults.probePort
        output := textField v "output" defaults.output
        verbose := ((v.field? "verbose").bind Value.bool?).getD defaults.verbose }

/-- The port of the probe at a position; probes are numbered from one. -/
def portOf (r : Rules) (probe : Nat) : String :=
  replaceFirst placeholder (toString (probe + 1)) r.probePort

end Rules

/-- Whether a module is an instance of `target`: by its own name, or behind the backslash that ends
the mangled part of a parameterised module's name. -/
def namesModule (target name : String) : Bool :=
  name == target || ('\\' :: target.toList).isSuffixOf name.toList

end ProbeAtlas
