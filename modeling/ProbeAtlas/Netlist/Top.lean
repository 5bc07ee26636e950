import ProbeAtlas.Netlist.Design
import ProbeAtlas.Text.Blank
import ProbeAtlas.Text.Numeral

/-!
# ProbeAtlas — choosing the top module

A netlist may mark its top module by an attribute. Otherwise the top is the module with the deepest
hierarchy among those that no cell instantiates; of several, the first.
-/

namespace ProbeAtlas

/-- The attribute that marks the top module. -/
def topAttribute : String := "top"

/-- A binary numeral marks the top if it is not zero, any other text if it is neither blank nor `0`. -/
def marksTop (value : String) : Bool :=
  let cs := value.toList
  if cs ≠ [] ∧ cs.all Numeral.isBinaryDigit then cs.contains '1'
  else
    let trimmed := trimBlanks cs
    trimmed ≠ [] && trimmed ≠ ['0']

namespace Design

/-- The name of the first module that is marked as top. -/
def markedTop? (d : Design) : Option String :=
  (d.modules.find? fun m => (Entries.get? m.attributes topAttribute).any marksTop).map Module.name

/-- The number of cells on the longest chain down from a module in which no module is expanded twice.
`above` lists the modules being expanded, and at most `fuel` more are expanded below them. -/
def depthBelow (d : Design) : Nat → List String → String → Nat
  | 0, _, _ => 0
  | fuel + 1, above, name =>
    match d.expandable? name with
    | none => 0
    | some m =>
      if name ∈ above then 0
      else (m.cells.map fun c => depthBelow d fuel (name :: above) c.type + 1).foldl max 0

/-- The depth of the hierarchy under a module. There are no more modules to expand than the design
has, so this many steps are enough. -/
def depth (d : Design) (name : String) : Nat :=
  d.depthBelow d.modules.length [] name

/-- Whether some cell of the design is of this type. -/
def isInstantiated (d : Design) (name : String) : Bool :=
  d.modules.any fun m => m.cells.any fun c => c.type == name

/-- The modules that may be the top: no cell instantiates them, and their contents are known. -/
def roots (d : Design) : List Module :=
  d.modules.filter fun m => !d.isInstantiated m.name && !m.blackbox

/-- The first name of greatest depth. -/
def deepest? : List (String × Nat) → Option (String × Nat)
  | [] => none
  | entry :: rest =>
    match deepest? rest with
    | none => some entry
    | some best => if entry.2 < best.2 then some best else some entry

/-- The name of the first root with the deepest hierarchy. -/
def deepestRoot? (d : Design) : Option String :=
  (deepest? (d.roots.map fun m => (m.name, d.depth m.name))).map Prod.fst

end Design

end ProbeAtlas
