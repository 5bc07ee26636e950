import Mathlib.Data.List.Forall2
import ProbeAtlas.Proofs.Flattening

/-!
# ProbeAtlas — flattening loses nothing and adds nothing

The top of a flattened design has one cell for every cell of the hierarchy that stays, under the name
that leads to it, with the same type and with connections of the same ports and widths. In the same way
it has one net name for every net name of every instance. Nothing else in the design changes, and there
is nothing left to flatten.

Main result: `Design.flatten_contents`.
-/

namespace ProbeAtlas

-- ---------------------------------------------------------------------------
-- Contents up to nets
-- ---------------------------------------------------------------------------

/-- What there is to a cell apart from its nets: connections are given by port and width. -/
structure CellOutline where
  name : String
  type : String
  ports : List (String × Nat)
deriving DecidableEq, Repr

/-- What there is to a net name apart from its nets. -/
structure NameOutline where
  name : String
  width : Nat
  hidden : Bool
  upto : Bool
deriving DecidableEq, Repr

def Cell.outline (c : Cell) : CellOutline :=
  ⟨c.name, c.type, c.connections.map fun a => (a.1, a.2.length)⟩

def NetName.outline (n : NetName) : NameOutline :=
  ⟨n.name, n.bits.length, n.hidden, n.upto⟩

/-- The outline of a cell of the hierarchy, under the name that leads to it. -/
def Placement.outline (x : Placement) : CellOutline :=
  { x.cell.outline with name := x.name }

/-- The outline of a net name of an instance, under the name that leads to it. -/
def outlineBelow (e : InstancePath × NetName) : NameOutline :=
  { e.2.outline with name := nameBelow e.1 e.2.name }

theorem CellCopy.outline_eq {d : Design} {top : Module} {ledger : Ledger} {x : Placement} {c : Cell}
    (h : CellCopy d top ledger x.scope x.cell c) : x.outline = c.outline := by
  have hPorts : x.cell.connections.map (fun a => (a.1, a.2.length)) =
      c.connections.map fun a => (a.1, a.2.length) := by
    rw [← List.forall₂_eq_eq_eq, List.forall₂_map_left_iff, List.forall₂_map_right_iff]
    refine h.connections.imp fun a a' ha => ?_
    rw [ha.1, ha.2.length_eq]
  rw [Placement.outline, Cell.outline, Cell.outline, hPorts, h.name, h.type]
  rfl

theorem NameCopy.outline_eq {d : Design} {top : Module} {ledger : Ledger} {e : InstancePath × NetName}
    {n : NetName} (h : NameCopy d top ledger e.1 e.2 n) : outlineBelow e = n.outline := by
  rw [outlineBelow, NetName.outline, NetName.outline, h.name, h.bits.length_eq, h.hidden, h.upto]

/-- Lists of copies have the outlines of the originals. -/
theorem Design.Flattened.outlines {d : Design} {top : Module} {leaves : List Placement}
    {scopes : List (InstancePath × Module)} {ledger : Ledger} {cells : List Cell}
    {netnames : List NetName} (h : Flattened d top leaves scopes ledger cells netnames) :
    cells.map Cell.outline = leaves.map Placement.outline ∧
      netnames.map NetName.outline = (namesOf scopes).map outlineBelow := by
  constructor
  · rw [eq_comm, ← List.forall₂_eq_eq_eq, List.forall₂_map_left_iff, List.forall₂_map_right_iff]
    exact h.cellCopies.imp fun _ _ hc => hc.outline_eq
  · rw [eq_comm, ← List.forall₂_eq_eq_eq, List.forall₂_map_left_iff, List.forall₂_map_right_iff]
    exact h.nameCopies.imp fun _ _ hn => hn.outline_eq

-- ---------------------------------------------------------------------------
-- Designs that are flat already
-- ---------------------------------------------------------------------------

namespace Design

variable {d : Design} {top : Module}

theorem flattenLevel_of_leaves {name : String} {cells : List Cell}
    (h : ∀ c ∈ cells, d.expandable? c.type = none) (s : Flat) :
    ∃ s', d.flattenLevel name cells s = .ok s' ∧ s'.kept.toList = s.kept.toList ++ cells ∧
      s'.pending = s.pending ∧ s'.netnames = s.netnames := by
  induction cells generalizing s with
  | nil => exact ⟨s, rfl, (List.append_nil _).symm, rfl, rfl⟩
  | cons c rest ih =>
    obtain ⟨hFirst, hRest⟩ := List.forall_mem_cons.mp h
    obtain ⟨s', hRun, hKept, hPending, hNames⟩ := ih hRest { s with kept := s.kept.push c }
    refine ⟨s', ?_, ?_, hPending, hNames⟩
    · rw [flattenLevel, hFirst]
      exact hRun
    · rw [hKept, Array.toList_push, List.append_assoc, List.singleton_append]

/-- A top without cells to expand is written back as it is. -/
theorem flatten_of_leaves (hTop : d.topModule? = some top)
    (hLeaves : ∀ c ∈ top.cells, d.expandable? c.type = none) :
    d.flatten = (d.withContents top top.cells top.netnames, none) := by
  have hRun : ∃ s, d.flattenLevels top.name (d.modules.length + 1) (initialFlat top) = .ok s ∧
      s.cells = top.cells ∧ s.netnames.toList = top.netnames := by
    rw [flattenLevels]
    split
    · exact ⟨initialFlat top, rfl, List.nil_append _, rfl⟩
    · obtain ⟨s, hLevel, hKept, hPending, hNames⟩ :=
        flattenLevel_of_leaves hLeaves { initialFlat top with pending := #[] }
      have hPendingCells : (initialFlat top).pending.toList = top.cells := rfl
      refine ⟨s, ?_, ?_, ?_⟩
      · rw [hPendingCells, hLevel]
        exact flattenLevels_of_pending hPending
      · rw [Flat.cells, hKept, hPending]
        exact List.append_nil _
      · rw [hNames]
        rfl
  obtain ⟨s, hLevels, hCells, hNames⟩ := hRun
  unfold flatten
  rw [hTop]
  dsimp only
  rw [hLevels]
  dsimp only
  rw [hCells, hNames]
  rfl

-- ---------------------------------------------------------------------------
-- Designs that inline alike
-- ---------------------------------------------------------------------------

/-- Both designs have contents for the same cells, and what takes the place of a cell is the same. -/
structure InlinesAlike (d d' : Design) : Prop where
  count : d'.modules.length = d.modules.length
  found : ∀ type, d.expandable? type = none ∧ d'.expandable? type = none ∨
            ∃ m m', d.expandable? type = some m ∧ d'.expandable? type = some m' ∧ m'.name = m.name ∧
              ∀ cell counter, inlineCell cell m' counter = inlineCell cell m counter

theorem InlinesAlike.flattenLevel {d d' : Design} (h : d.InlinesAlike d') (name : String) (cells : List Cell)
    (s : Flat) : d'.flattenLevel name cells s = d.flattenLevel name cells s := by
  induction cells generalizing s with
  | nil => rfl
  | cons c rest ih =>
    rw [Design.flattenLevel, Design.flattenLevel, h.count]
    rcases h.found c.type with ⟨hFound, hFound'⟩ | ⟨m, m', hFound, hFound', hName, hSame⟩
    · rw [hFound, hFound']
      exact ih _
    · have hInline : s.inline c m' = s.inline c m := by rw [Flat.inline, Flat.inline, hSame]
      rw [hFound, hFound']
      dsimp only
      rw [hName, hInline, ih]

/-- **Levels of designs that inline alike end in the same way.** -/
theorem InlinesAlike.flattenLevels {d d' : Design} (h : d.InlinesAlike d') (name : String) (fuel : Nat)
    (s : Flat) : d'.flattenLevels name fuel s = d.flattenLevels name fuel s := by
  induction fuel generalizing s with
  | zero => rfl
  | succ fuel ih => simp only [Design.flattenLevels, h.flattenLevel, ih]

-- ---------------------------------------------------------------------------
-- The flat design
-- ---------------------------------------------------------------------------

/-- A module is found as it has been changed. -/
theorem find?_update {name : String} {f : Module → Module} (hf : ∀ m, (f m).name = m.name)
    (other : String) : (d.update name f).find? other =
      (d.find? other).map fun m => if m.name = name then f m else m := by
  unfold find? update
  rw [List.find?_map]
  congr 2
  funext m
  simp only [Function.comp]
  split
  · rw [hf]
  · rfl

section WithContents

variable {cells : List Cell} {netnames : List NetName}

theorem find?_withContents (name : String) :
    (d.withContents top cells netnames).find? name =
      (d.find? name).map fun m => if m.name = top.name then { m with cells, netnames } else m :=
  find?_update (f := fun m => { m with cells, netnames }) (fun _ => rfl) name

theorem topModule?_withContents (hTop : d.topModule? = some top) :
    (d.withContents top cells netnames).topModule? = some { top with cells, netnames } := by
  obtain ⟨name, hName, hFind⟩ := Option.bind_eq_some_iff.mp hTop
  refine Option.bind_eq_some_iff.mpr ⟨name, hName, ?_⟩
  rw [find?_withContents, hFind, Option.map_some, if_pos rfl]

/-- Contents decide nothing about whether a cell can be expanded. -/
theorem expandable?_withContents {type : String} (h : d.expandable? type = none) :
    (d.withContents top cells netnames).expandable? type = none := by
  unfold expandable? at h ⊢
  rw [find?_withContents]
  cases hFind : d.find? type with
  | none => rfl
  | some m =>
    rw [hFind, Option.filter_some] at h
    rw [Option.map_some, Option.filter_some]
    split at h
    · cases h
    · next hBlackbox =>
      refine if_neg ?_
      split
      · exact hBlackbox
      · exact hBlackbox

/-- Giving the top its contents a second time changes nothing. -/
theorem withContents_withContents :
    (d.withContents top cells netnames).withContents top cells netnames =
      d.withContents top cells netnames := by
  unfold withContents
  dsimp only
  rw [List.map_map]
  congr 1
  refine List.map_congr_left fun m _ => ?_
  simp only [Function.comp]
  split <;> simp_all

end WithContents

/-- No cell of a flat top can be expanded. -/
theorem Flattened.expandable?_eq_none {leaves : List Placement} {scopes : List (InstancePath × Module)}
    {ledger : Ledger} {cells : List Cell} {netnames : List NetName}
    (h : Flattened d top leaves scopes ledger cells netnames) {c : Cell} (hc : c ∈ cells) :
    d.expandable? c.type = none := by
  obtain ⟨hLength, hAt⟩ := List.forall₂_iff_get.mp h.cellCopies
  obtain ⟨i, hi, rfl⟩ := List.getElem_of_mem hc
  have hCopy := hAt i (hLength ▸ hi) hi
  rw [List.get_eq_getElem, List.get_eq_getElem] at hCopy
  rw [hCopy.type]
  exact ((h.enumerates.mem_leaves _).mp (List.getElem_mem _)).2

/-- **Flattening loses nothing and adds nothing.** The outlines of the cells and of the net names in
the flat top are, one for one, those of the cells that stay in the hierarchy and of the net names of its
instances. Otherwise the design is as it was, and flattening it again changes nothing. -/
theorem flatten_contents {d d' : Design} (h : d.flatten = (d', none)) :
    ∃ top leaves scopes cells netnames,
      d.topModule? = some top ∧ d.Enumerates top leaves scopes ∧
      cells.map Cell.outline = leaves.map Placement.outline ∧
      netnames.map NetName.outline = (namesOf scopes).map outlineBelow ∧
      d' = d.withContents top cells netnames ∧
      d'.topModule? = some { top with cells, netnames } ∧
      d'.flatten = (d', none) := by
  obtain ⟨top, leaves, scopes, ledger, cells, netnames, hTop, hFlattened, rfl⟩ := flatten_elaborates h
  obtain ⟨hCells, hNames⟩ := hFlattened.outlines
  have hTop' : (d.withContents top cells netnames).topModule? = some { top with cells, netnames } :=
    topModule?_withContents hTop
  have hAgain := flatten_of_leaves hTop' fun c hc =>
    expandable?_withContents (hFlattened.expandable?_eq_none hc)
  refine ⟨top, leaves, scopes, cells, netnames, hTop, hFlattened.enumerates, hCells, hNames, rfl,
    hTop', ?_⟩
  rw [hAgain]
  exact congrArg (·, none) withContents_withContents

end Design

/-! ## A hierarchy of three levels -/

/-- Two instances of one module, which holds a blackbox and an instance of a third module. The second
instance leaves a port unconnected, and the first one ties it to a constant. -/
def nestedDesign : Design :=
  { modules :=
      [{ name := "top", attributes := [], parameters := [], ports := [("in", ⟨.input, [.net 2]⟩)]
         cells :=
           [⟨"u", "pair", [("a", [.net 2]), ("b", [.const .one])]⟩, ⟨"v", "pair", [("a", [.net 2])]⟩,
             ⟨"w", "BUF", [("I", [.net 2]), ("O", [.net 3])]⟩]
         netnames := [⟨"n", [.net 2, .net 3], false, false⟩], blackbox := false },
        { name := "pair", attributes := [], parameters := []
          ports := [("a", ⟨.input, [.net 2]⟩), ("b", ⟨.input, [.net 3]⟩)]
          cells :=
            [⟨"i", "box", [("p", [.net 2, .net 3])]⟩, ⟨"j", "wrap", [("x", [.net 2]), ("y", [.net 4])]⟩]
          netnames := [⟨"q", [.net 4], true, false⟩], blackbox := false },
        { name := "wrap", attributes := [], parameters := []
          ports := [("x", ⟨.input, [.net 5]⟩), ("y", ⟨.output, [.net 6]⟩)]
          cells := [⟨"inv", "INV", [("I", [.net 5]), ("O", [.net 6])]⟩]
          netnames := [], blackbox := false },
        { name := "box", attributes := [], parameters := [], ports := [], cells := []
          netnames := [], blackbox := true }]
    top := some "top"
    flattened := false }

theorem nestedDesign_flattens : nestedDesign.flatten = (nestedDesign.flatten.1, none) := by
  have hFault : nestedDesign.flatten.2 = none := by decide +kernel
  exact Prod.ext rfl hFault

/-- The flat top of the sample has the five cells that stay, each under its own path. -/
theorem nestedDesign_contents : ∃ top leaves scopes cells netnames,
    nestedDesign.flatten = (nestedDesign.flatten.1, none) ∧
      nestedDesign.topModule? = some top ∧ nestedDesign.Enumerates top leaves scopes ∧
      cells.map Cell.outline = leaves.map Placement.outline ∧
      netnames.map NetName.outline = (namesOf scopes).map outlineBelow ∧
      nestedDesign.flatten.1.topModule? = some { top with cells, netnames } ∧
      (nestedDesign.flatten.1.topModule?.map fun m => m.cells.map Cell.name) =
        some ["w", "u.i", "v.i", "u.j.inv", "v.j.inv"] := by
  obtain ⟨top, leaves, scopes, cells, netnames, hTop, hEnumerates, hCells, hNames, -, hTop', -⟩ :=
    Design.flatten_contents nestedDesign_flattens
  exact ⟨top, leaves, scopes, cells, netnames, nestedDesign_flattens, hTop, hEnumerates, hCells, hNames,
    hTop', by decide +kernel⟩

end ProbeAtlas
