import ProbeAtlas.Analysis
import ProbeAtlas.Files
import ProbeAtlas.Json.Writer
import ProbeAtlas.Netlist.Format
import ProbeAtlas.Rules.Format

/-!
# ProbeAtlas — the command line

The arguments name a netlist and say how to pick its top module, where the rules are and where the
report goes. A run loads the rules, then the netlist, analyses the design and writes the report. What
it has to say goes to the error channel, as a list of notices.
-/

namespace ProbeAtlas

/-! ## Arguments -/

/-- What the arguments ask for. -/
structure Request where
  netlist : String
  top : TopChoice
  /-- Where the report goes; the rules say so if this does not. -/
  report : Option String
  rules : Option String
deriving DecidableEq, Repr

/-- Why the arguments ask for nothing. -/
inductive UsageError where
  | unknownOption (option : String)
  | noNetlist
deriving DecidableEq, Repr

def usage : String :=
  "Usage: ocla-analyze <netlist.json> [-top <top_module_name> | -auto-top] [-file <out.json>] " ++
    "[-config <rules.yaml>]"

/-- What is said about arguments that ask for nothing. -/
def UsageError.lines : UsageError → List String
  | .unknownOption option => ["Unknown option: \"" ++ option ++ "\"", usage]
  | .noNetlist => [usage]

namespace Request

/-- The arguments as far as they have been read. -/
structure Draft where
  netlist : Option String := none
  top : TopChoice := ⟨none, false⟩
  report : Option String := none
  rules : Option String := none

/-- An option may begin with one dash or two. -/
def singleDash (arg : String) : String :=
  match arg.toList with
  | '-' :: '-' :: rest => String.ofList ('-' :: rest)
  | _ => arg

/-- An argument that is no option names the netlist, once. -/
def operand (arg : String) (draft : Draft) : Except UsageError Draft :=
  if arg.toList.head? == some '-' || draft.netlist.isSome then .error (.unknownOption arg)
  else .ok { draft with netlist := some arg }

/-- Reads the arguments in order; a later option overrides an earlier one. -/
def read : List String → Draft → Except UsageError Draft
  | [], draft => .ok draft
  | [arg], draft =>
    match singleDash arg with
    | "-auto-top" => .ok { draft with top := { draft.top with deepest := true } }
    | arg => operand arg draft
  | arg :: next :: rest, draft =>
    match singleDash arg with
    | "-auto-top" => read (next :: rest) { draft with top := { draft.top with deepest := true } }
    | "-top" => read rest { draft with top := { draft.top with name := some next } }
    | "-file" => read rest { draft with report := some next }
    | "-config" => read rest { draft with rules := some next }
    | arg =>
      match operand arg draft with
      | .error e => .error e
      | .ok draft => read (next :: rest) draft

/-- What the arguments ask for. -/
def parse (args : List String) : Except UsageError Request :=
  match read args {} with
  | .error e => .error e
  | .ok draft =>
    match draft.netlist with
    | none => .error .noNetlist
    | some netlist => .ok { netlist, top := draft.top, report := draft.report, rules := draft.rules }

end Request

/-! ## Runs -/

/-- Why a run fails. -/
inductive Failure where
  | file (error : FileError)
  | rules (error : RulesError)
  | netlist (error : NetlistError)
  | abort (abort : Abort)
deriving DecidableEq, Repr

def Failure.message : Failure → String
  | .file e => e.message
  | .rules e => e.message
  | .netlist e => e.message
  | .abort a => a.message

/-- What a run says on the error channel. -/
inductive Notice where
  | line (text : String)
  | failure (cause : Failure)
deriving DecidableEq, Repr

def Notice.text : Notice → String
  | .line text => text
  | .failure cause => cause.message

/-- How a run ends. -/
structure Outcome where
  /-- None if the run goes on for ever. -/
  exitStatus : Option Nat
  notices : List Notice
deriving DecidableEq, Repr

namespace Outcome

/-- A run that does what was asked for. -/
def success (said : List String) : Outcome :=
  ⟨some 0, said.map .line⟩

/-- A run that fails after saying some lines. -/
def failed (said : List String) (cause : Failure) : Outcome :=
  ⟨some 1, said.map .line ++ [.failure cause]⟩

/-- A run that says some lines and goes on for ever. -/
def endless (said : List String) : Outcome :=
  ⟨none, said.map .line⟩

end Outcome

/-- The text of a report file. -/
def Report.text (r : Report) : String :=
  Json.pretty r.toValue ++ "\n"

namespace Request

variable {m : Type → Type} [Monad m]

/-- Loads the rules; without a path they are the defaults. -/
def loadRules (r : Request) (files : FileAccess m) : m (Except Failure Rules) := do
  match r.rules with
  | none => return .ok {}
  | some "" => return .ok {}
  | some path =>
    match ← files.read path with
    | .error e => return .error (.file e)
    | .ok text => return (Rules.parse text).mapError .rules

/-- Loads the design. -/
def loadDesign (r : Request) (files : FileAccess m) : m (Except Failure Design) := do
  match ← files.read r.netlist with
  | .error e => return .error (.file e)
  | .ok text => return (Design.parse r.top text).mapError .netlist

/-- Writes what an analysis under the given rules found. Without a top module the report that says so
is written too, and the run still fails. Nothing is written where the analysis goes on for ever. -/
def writeFinding (r : Request) (files : FileAccess m) (rules : Rules) (analysis : Analysis) :
    m Outcome := do
  let path := r.report.getD rules.output
  let said := if rules.verbose then analysis.log.lines else []
  match analysis.outcome with
  | .ok finding =>
    match ← files.write path finding.report.text with
    | .error e => return .failed said (.file e)
    | .ok () =>
      let summary := s!"OCLA analysis: {finding.qualified} qualified core(s), report written to {path}"
      return .success (said ++ [summary])
  | .error (.thrown (.noTop report)) =>
    match ← files.write path report.text with
    | .error e => return .failed said (.file e)
    | .ok () => return .failed said (.abort (.noTop report))
  | .error (.thrown (.fault f)) => return .failed said (.abort (.fault f))
  | .error (.endless _) => return .endless said

/-- Does what was asked for. -/
def run (r : Request) (files : FileAccess m) : m Outcome := do
  match ← r.loadRules files with
  | .error cause => return .failed [] cause
  | .ok rules =>
    match ← r.loadDesign files with
    | .error cause => return .failed [] cause
    | .ok design => r.writeFinding files rules (design.analyze rules)

end Request

/-- A run with the given arguments. -/
def runCommand {m : Type → Type} [Monad m] (files : FileAccess m) (args : List String) : m Outcome :=
  match Request.parse args with
  | .error e => return ⟨some 1, e.lines.map .line⟩
  | .ok request => request.run files

end ProbeAtlas
