import ProbeAtlas.Rules
import ProbeAtlas.Yaml.Document

/-!
# ProbeAtlas — rules texts

Rules are written as a YAML text. A text without a document leaves every rule at its default.
-/

namespace ProbeAtlas

/-- Why a rules text gives no rules. -/
inductive RulesError where
  | unreadable (error : Yaml.LoadError)
  | invalid (issue : Issue)
deriving DecidableEq, Repr

def RulesError.message : RulesError → String
  | .unreadable .malformed => "The analyzer rules are not YAML"
  | .unreadable .mistyped => "The analyzer rules have a tag that does not fit its value"
  | .invalid issue => "Invalid analyzer rules at " ++ issue.text

/-- The rules that a data tree gives, or why it gives none. -/
def Rules.check (v : Value) : Except RulesError Rules :=
  (Rules.ofValue v).mapError .invalid

/-- How deep rules are nested. -/
def Rules.depth : Nat := 2

/-- The rules that a text gives. -/
def Rules.parse (text : String) : Except RulesError Rules :=
  match Yaml.load text with
  | .error e => .error (.unreadable e)
  | .ok document => Rules.check (document.view Rules.depth)

end ProbeAtlas
