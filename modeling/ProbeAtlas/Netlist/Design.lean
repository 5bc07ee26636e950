import ProbeAtlas.Netlist.Bit
import ProbeAtlas.Value.Entries

/-!
# ProbeAtlas — designs

A design is a list of modules in the order of the netlist, each with ports, cells and net names. A cell
instantiates a module by its name, or a primitive that the design does not define. Signals are lists
of bits, least significant first.
-/

namespace ProbeAtlas

/-- A name for the bits of a signal. -/
structure NetName where
  name : String
  bits : List Bit
  hidden : Bool
  upto : Bool
deriving DecidableEq, Repr

inductive Direction where
  | input
  | output
  | inout
deriving DecidableEq, Repr

def Direction.text : Direction → String
  | .input => "input"
  | .output => "output"
  | .inout => "inout"

structure Port where
  direction : Direction
  bits : List Bit
deriving DecidableEq, Repr

/-- An instance of the module or primitive `type`. -/
structure Cell where
  name : String
  type : String
  connections : List (String × List Bit)
deriving DecidableEq, Repr

/-- The bits connected to a port of a cell. -/
def Cell.connection? (c : Cell) (port : String) : Option (List Bit) :=
  Entries.get? c.connections port

/-- A module; parameters hold their default values as literals. -/
structure Module where
  name : String
  attributes : List (String × String)
  parameters : List (String × String)
  ports : List (String × Port)
  cells : List Cell
  netnames : List NetName
  blackbox : Bool
deriving DecidableEq, Repr

/-- The modules of a netlist and the name of the top module, which need not be a module's name. -/
structure Design where
  modules : List Module
  top : Option String
  flattened : Bool
deriving DecidableEq, Repr

/-- A cell with the module that holds it. -/
structure Use where
  holder : Module
  cell : Cell
deriving DecidableEq, Repr

namespace Design

def find? (d : Design) (name : String) : Option Module :=
  d.modules.find? fun m => m.name == name

def topModule? (d : Design) : Option Module :=
  d.top.bind d.find?

/-- Changes the modules of the given name. -/
def update (d : Design) (name : String) (f : Module → Module) : Design :=
  { d with modules := d.modules.map fun m => if m.name = name then f m else m }

/-- The module behind a cell type, if its contents are known. -/
def expandable? (d : Design) (type : String) : Option Module :=
  (d.find? type).filter fun m => !m.blackbox

/-- Every cell of the given type, in the order of modules and cells. -/
def uses (d : Design) (type : String) : List Use :=
  d.modules.flatMap fun m => (m.cells.filter fun c => c.type == type).map fun c => ⟨m, c⟩

end Design

end ProbeAtlas
