import Mathlib.Data.List.Nodup
import Mathlib.Data.List.Perm.Basic
import ProbeAtlas.Netlist.Design

/-!
# ProbeAtlas — the hierarchy below the top module

The instances of a design are reached from the top module through cells of modules whose contents are
known (`Design.Reaches`). An instance is given by the cells on the way to it, and a cell by its
position in its module as well, so nothing depends on names being unique.

A recursive design has infinitely many instances. Flattening ends on such a design only if there is
nothing to copy, and then it comes upon the top itself as the last cell to be looked at. Any other
flattening looks at every cell exactly once. `Elaboration.Covers` is the invariant of such a search
through the hierarchy. It is independent of what is done with the cells found.

Main results: `Covers.enumerates_of_done` and `Covers.enumerates_of_loop` — at the end the search has
listed exactly the cells that stay, and every instance that has net names.
-/

namespace ProbeAtlas

-- ---------------------------------------------------------------------------
-- Paths
-- ---------------------------------------------------------------------------

/-- The cells on the way from the top down to an instance, each with its position in its module. -/
abbrev InstancePath := List (Cell × Nat)

/-- A name as it reads from the top: the cells on the way joined with dots. -/
def nameBelow (p : InstancePath) (name : String) : String :=
  ".".intercalate (p.map (fun step => step.1.name) ++ [name])

@[simp] theorem nameBelow_nil (name : String) : nameBelow [] name = name :=
  String.intercalate_singleton

theorem nameBelow_cons (step : Cell × Nat) (p : InstancePath) (name : String) :
    nameBelow (step :: p) name = step.1.name ++ "." ++ nameBelow p name := by
  rw [nameBelow, List.map_cons, List.cons_append, String.intercalate_cons_of_ne_nil (by simp)]
  rfl

theorem nameBelow_snoc (p : InstancePath) (step : Cell × Nat) (name : String) :
    nameBelow (p ++ [step]) name = nameBelow p step.1.name ++ "." ++ name := by
  rw [nameBelow, List.map_append, List.map_cons, List.map_nil,
    String.intercalate_append_of_ne_nil (by simp) (by simp), String.intercalate_singleton]
  rfl

/-- A cell of an instance. -/
structure Placement where
  scope : InstancePath
  cell : Cell
  position : Nat
deriving DecidableEq

namespace Placement

/-- The way through the cell. -/
def path (x : Placement) : InstancePath :=
  x.scope ++ [(x.cell, x.position)]

def name (x : Placement) : String :=
  nameBelow x.scope x.cell.name

theorem nameBelow_path (x : Placement) (name : String) :
    nameBelow x.path name = x.name ++ "." ++ name :=
  nameBelow_snoc x.scope (x.cell, x.position) name

theorem path_injective {x y : Placement} (h : x.path = y.path) : x = y := by
  obtain ⟨hScope, hStep⟩ := List.append_inj' h rfl
  obtain ⟨hCell, hPosition⟩ := Prod.mk.inj (List.cons.inj hStep).1
  cases x
  cases y
  cases hScope
  cases hCell
  cases hPosition
  rfl

end Placement

/-- The cells of an instance. -/
def placements (p : InstancePath) (m : Module) : List Placement :=
  m.cells.zipIdx.map fun step => ⟨p, step.1, step.2⟩

theorem mem_placements {p : InstancePath} {m : Module} {x : Placement} :
    x ∈ placements p m ↔ x.scope = p ∧ m.cells[x.position]? = some x.cell := by
  rw [placements, List.mem_map]
  constructor
  · rintro ⟨⟨c, i⟩, hStep, rfl⟩
    exact ⟨rfl, List.mem_zipIdx_iff_getElem?.mp hStep⟩
  · rintro ⟨rfl, hCell⟩
    exact ⟨(x.cell, x.position), List.mem_zipIdx_iff_getElem?.mpr hCell, rfl⟩

theorem nodup_placements (p : InstancePath) (m : Module) : (placements p m).Nodup := by
  have hPositions : ((placements p m).map Placement.position).Nodup := by
    rw [placements, List.map_map]
    show (m.cells.zipIdx.map Prod.snd).Nodup
    rw [List.zipIdx_map_snd]
    exact List.nodup_range'
  exact hPositions.of_map _

namespace Design

/-- The instances of a design and their modules. -/
inductive Reaches (d : Design) (top : Module) : InstancePath → Module → Prop
  | root : Reaches d top [] top
  | child {p : InstancePath} {m below : Module} {c : Cell} {i : Nat} : Reaches d top p m →
      m.cells[i]? = some c → d.expandable? c.type = some below → Reaches d top (p ++ [(c, i)]) below

/-- The hierarchy below an instance is a part of the whole. -/
theorem Reaches.append {d : Design} {top mid m : Module} {p q : InstancePath}
    (hMid : d.Reaches top q mid) (h : d.Reaches mid p m) : d.Reaches top (q ++ p) m := by
  induction h with
  | root => rwa [List.append_nil]
  | child _ hCell hBelow ih =>
    rw [← List.append_assoc]
    exact .child ih hCell hBelow

/-- The cells of all instances. -/
def HasCell (d : Design) (top : Module) (x : Placement) : Prop :=
  ∃ m, d.Reaches top x.scope m ∧ m.cells[x.position]? = some x.cell

/-- The cells of the hierarchy whose contents are not known, each once, and instances, each once, among
them all that have net names. -/
structure Enumerates (d : Design) (top : Module) (leaves : List Placement)
    (scopes : List (InstancePath × Module)) : Prop where
  leaves_nodup : leaves.Nodup
  mem_leaves   : ∀ x, x ∈ leaves ↔ d.HasCell top x ∧ d.expandable? x.cell.type = none
  scopes_nodup : scopes.Nodup
  reached      : ∀ p m, (p, m) ∈ scopes → d.Reaches top p m
  complete     : ∀ p m, d.Reaches top p m → m.netnames ≠ [] → (p, m) ∈ scopes

end Design

-- ---------------------------------------------------------------------------
-- Searching the hierarchy
-- ---------------------------------------------------------------------------

/-- What a search has found: cells that stay, cells to be looked at later, and instances. -/
structure Elaboration where
  leaves : List Placement
  next : List Placement
  scopes : List (InstancePath × Module)

namespace Elaboration

/-- The search has found the top only. -/
def start (top : Module) : Elaboration :=
  ⟨[], placements [] top, [([], top)]⟩

def keep (g : Elaboration) (x : Placement) : Elaboration :=
  { g with leaves := g.leaves ++ [x] }

def expand (g : Elaboration) (x : Placement) (below : Module) : Elaboration :=
  { g with
    next := g.next ++ placements x.path below
    scopes := g.scopes ++ [(x.path, below)] }

/-- Goes on with the cells that were put off. -/
def advance (g : Elaboration) : Elaboration :=
  { g with next := [] }

/-- The cells that have not been expanded, where `front` are those to be looked at now. -/
def unexpanded (g : Elaboration) (front : List Placement) : List Placement :=
  g.leaves ++ (front ++ g.next)

/-- The paths of the instances found. -/
def paths (g : Elaboration) : List InstancePath :=
  g.scopes.map Prod.fst

/-- All cells of the instances found are accounted for, and only those. -/
structure Covers (d : Design) (top : Module) (g : Elaboration) (front : List Placement) : Prop where
  root     : ([], top) ∈ g.scopes
  reached  : ∀ p m, (p, m) ∈ g.scopes → d.Reaches top p m
  parent   : ∀ p step, p ++ [step] ∈ g.paths → p ∈ g.paths
  leaf     : ∀ x ∈ g.leaves, d.expandable? x.cell.type = none
  cellOf   : ∀ x ∈ g.unexpanded front, ∃ m, (x.scope, m) ∈ g.scopes ∧
               m.cells[x.position]? = some x.cell
  complete : ∀ p m, (p, m) ∈ g.scopes → ∀ (i : Nat) c, m.cells[i]? = some c →
               ⟨p, c, i⟩ ∈ g.unexpanded front ∨
                 ∃ below, d.expandable? c.type = some below ∧ (p ++ [(c, i)], below) ∈ g.scopes
  nodup    : (g.unexpanded front).Nodup
  paths_nodup : g.paths.Nodup
  apart    : ∀ x ∈ g.unexpanded front, x.path ∉ g.paths

variable {d : Design} {top : Module} {g : Elaboration} {front : List Placement} {x : Placement}

theorem unexpanded_keep : (g.keep x).unexpanded front = g.unexpanded (x :: front) := by
  simp [unexpanded, keep]

theorem unexpanded_expand (below : Module) :
    (g.expand x below).unexpanded front = g.unexpanded front ++ placements x.path below := by
  simp [unexpanded, expand]

theorem unexpanded_advance : g.advance.unexpanded g.next = g.unexpanded [] := by
  simp [unexpanded, advance]

theorem unexpanded_cons_perm : (g.unexpanded (x :: front)).Perm (x :: g.unexpanded front) :=
  List.perm_middle

theorem paths_expand (below : Module) : (g.expand x below).paths = g.paths ++ [x.path] := by
  simp [paths, expand]

theorem Covers.scope_mem_paths (h : g.Covers d top front) {y : Placement}
    (hy : y ∈ g.unexpanded front) : y.scope ∈ g.paths := by
  obtain ⟨m, hm, -⟩ := h.cellOf y hy
  exact List.mem_map_of_mem hm

/-- The cell that is taken next is a cell of the hierarchy. -/
theorem Covers.hasCell (h : g.Covers d top (x :: front)) : d.HasCell top x := by
  obtain ⟨m, hm, hCell⟩ := h.cellOf x (by simp [unexpanded])
  exact ⟨m, h.reached _ _ hm, hCell⟩

theorem Covers.reaches_path (h : g.Covers d top (x :: front)) {below : Module}
    (hBelow : d.expandable? x.cell.type = some below) : d.Reaches top x.path below := by
  obtain ⟨m, hm, hCell⟩ := h.hasCell
  exact .child hm hCell hBelow

theorem covers_start (d : Design) (top : Module) : (start top).Covers d top [] := by
  have hOpen : (start top).unexpanded [] = placements [] top := by simp [unexpanded, start]
  refine
    { root := List.mem_singleton_self _, reached := ?reached, parent := ?parent, leaf := ?leaf, cellOf := ?cellOf
      complete := ?complete, nodup := ?nodup, paths_nodup := List.nodup_singleton _, apart := ?apart }
  case reached =>
    intro p m hMem
    cases List.mem_singleton.mp hMem
    exact .root
  case parent =>
    intro p step hMem
    have := List.mem_singleton.mp hMem
    simp at this
  case leaf =>
    intro x hx
    cases hx
  case cellOf =>
    intro x hx
    rw [hOpen] at hx
    obtain ⟨hScope, hCell⟩ := mem_placements.mp hx
    exact ⟨top, by rw [hScope]; exact List.mem_singleton_self _, hCell⟩
  case complete =>
    intro p m hMem i c hCell
    cases List.mem_singleton.mp hMem
    rw [hOpen]
    exact Or.inl (mem_placements.mpr ⟨rfl, hCell⟩)
  case nodup =>
    rw [hOpen]
    exact nodup_placements _ _
  case apart =>
    intro x _ hMem
    have := List.mem_singleton.mp hMem
    simp [Placement.path] at this

theorem Covers.advance (h : g.Covers d top []) : g.advance.Covers d top g.next := by
  obtain ⟨hRoot, hReached, hParent, hLeaf, hCellOf, hComplete, hNodup, hPaths, hApart⟩ := h
  rw [← unexpanded_advance] at hCellOf hNodup hApart
  simp only [← unexpanded_advance] at hComplete
  exact ⟨hRoot, hReached, hParent, hLeaf, hCellOf, hComplete, hNodup, hPaths, hApart⟩

theorem Covers.keep (h : g.Covers d top (x :: front)) (hLeaf : d.expandable? x.cell.type = none) :
    (g.keep x).Covers d top front := by
  obtain ⟨hRoot, hReached, hParent, hLeaves, hCellOf, hComplete, hNodup, hPaths, hApart⟩ := h
  rw [← unexpanded_keep] at hCellOf hNodup hApart
  simp only [← unexpanded_keep] at hComplete
  refine ⟨hRoot, hReached, hParent, ?_, hCellOf, hComplete, hNodup, hPaths, hApart⟩
  intro y hy
  rcases List.mem_append.mp hy with hy | hy
  · exact hLeaves y hy
  · rw [List.mem_singleton.mp hy]
    exact hLeaf

/-- **Expanding a cell keeps the account.** Its own cells are new, because their scope is. -/
theorem Covers.expand (h : g.Covers d top (x :: front)) {below : Module}
    (hBelow : d.expandable? x.cell.type = some below) : (g.expand x below).Covers d top front := by
  have hPerm : (g.unexpanded (x :: front)).Perm (x :: g.unexpanded front) := unexpanded_cons_perm
  have hx : x ∈ g.unexpanded (x :: front) := hPerm.mem_iff.mpr (List.mem_cons_self ..)
  have hOld : ∀ y ∈ g.unexpanded front, y ∈ g.unexpanded (x :: front) := fun y hy =>
    hPerm.mem_iff.mpr (List.mem_cons_of_mem _ hy)
  have hNew : x.path ∉ g.paths := h.apart x hx
  obtain ⟨hFresh, hNodup⟩ := List.nodup_cons.mp (hPerm.nodup_iff.mp h.nodup)
  refine
    { root := List.mem_append_left _ h.root, reached := ?reached, parent := ?parent, leaf := h.leaf
      cellOf := ?cellOf, complete := ?complete, nodup := ?nodup, paths_nodup := ?paths_nodup, apart := ?apart }
  case reached =>
    intro p m hMem
    rcases List.mem_append.mp hMem with hMem | hMem
    · exact h.reached p m hMem
    · cases List.mem_singleton.mp hMem
      obtain ⟨m', hm', hCell⟩ := h.cellOf x hx
      exact .child (h.reached _ _ hm') hCell hBelow
  case parent =>
    intro p step hMem
    rw [paths_expand] at hMem ⊢
    rcases List.mem_append.mp hMem with hMem | hMem
    · exact List.mem_append_left _ (h.parent p step hMem)
    · obtain ⟨hScope, -⟩ := List.append_inj' (List.mem_singleton.mp hMem) rfl
      rw [hScope]
      exact List.mem_append_left _ (h.scope_mem_paths hx)
  case cellOf =>
    intro y hy
    rw [unexpanded_expand] at hy
    rcases List.mem_append.mp hy with hy | hy
    · obtain ⟨m, hm, hCell⟩ := h.cellOf y (hOld y hy)
      exact ⟨m, List.mem_append_left _ hm, hCell⟩
    · obtain ⟨hScope, hCell⟩ := mem_placements.mp hy
      exact ⟨below, by rw [hScope]; exact List.mem_append_right _ (List.mem_singleton_self _), hCell⟩
  case complete =>
    intro p m hMem i c hCell
    rw [unexpanded_expand]
    rcases List.mem_append.mp hMem with hMem | hMem
    · rcases h.complete p m hMem i c hCell with hOpen | ⟨below', hBelow', hScope⟩
      · rcases List.mem_cons.mp (hPerm.mem_iff.mp hOpen) with rfl | hOpen
        · exact Or.inr ⟨below, hBelow, List.mem_append_right _ (List.mem_singleton_self _)⟩
        · exact Or.inl (List.mem_append_left _ hOpen)
      · exact Or.inr ⟨below', hBelow', List.mem_append_left _ hScope⟩
    · cases List.mem_singleton.mp hMem
      exact Or.inl (List.mem_append_right _ (mem_placements.mpr ⟨rfl, hCell⟩))
  case nodup =>
    rw [unexpanded_expand]
    refine List.Nodup.append hNodup (nodup_placements _ _) fun y hy hyNew => hNew ?_
    rw [← (mem_placements.mp hyNew).1]
    exact h.scope_mem_paths (hOld y hy)
  case paths_nodup =>
    rw [paths_expand]
    refine List.Nodup.append h.paths_nodup (List.nodup_singleton _) fun p hp hpNew => hNew ?_
    rw [← List.mem_singleton.mp hpNew]
    exact hp
  case apart =>
    intro y hy hMem
    rw [unexpanded_expand] at hy
    rw [paths_expand] at hMem
    rcases List.mem_append.mp hy with hy | hy
    · -- an old cell: its path was no instance before, and it is not the one expanded
      rcases List.mem_append.mp hMem with hMem | hMem
      · exact h.apart y (hOld y hy) hMem
      · rw [Placement.path_injective (List.mem_singleton.mp hMem)] at hy
        exact hFresh hy
    · -- a new cell: an instance there would have had the expanded cell's instance above it
      have hPath : y.path = x.path ++ [(y.cell, y.position)] := by
        rw [Placement.path, (mem_placements.mp hy).1]
      rw [hPath] at hMem
      rcases List.mem_append.mp hMem with hMem | hMem
      · exact hNew (h.parent x.path _ hMem)
      · have hLength := congrArg List.length (List.mem_singleton.mp hMem)
        simp at hLength

-- ---------------------------------------------------------------------------
-- The end of a search
-- ---------------------------------------------------------------------------

theorem unexpanded_of_done (hNext : g.next = []) : g.unexpanded [] = g.leaves := by
  rw [unexpanded, hNext, List.append_nil, List.append_nil]

/-- **A search without cells left to look at has found all instances.** -/
theorem Covers.mem_scopes_of_done (h : g.Covers d top []) (hNext : g.next = []) {p : InstancePath}
    {m : Module} (hReaches : d.Reaches top p m) : (p, m) ∈ g.scopes := by
  induction hReaches with
  | root => exact h.root
  | @child p m below c i _ hCell hBelow ih =>
    rcases h.complete p m ih i c hCell with hLeaf | ⟨below', hBelow', hScope⟩
    · rw [unexpanded_of_done hNext] at hLeaf
      rw [h.leaf _ hLeaf] at hBelow
      cases hBelow
    · rw [hBelow] at hBelow'
      cases hBelow'
      exact hScope

theorem Covers.enumerates_of_done (h : g.Covers d top []) (hNext : g.next = []) :
    d.Enumerates top g.leaves g.scopes := by
  have hOpen : g.unexpanded [] = g.leaves := unexpanded_of_done hNext
  have hAll : ∀ p m, d.Reaches top p m → (p, m) ∈ g.scopes := fun _ _ hReaches =>
    h.mem_scopes_of_done hNext hReaches
  refine ⟨hOpen ▸ h.nodup, ?_, h.paths_nodup.of_map _, h.reached, fun p m hReaches _ => hAll p m hReaches⟩
  intro x
  constructor
  · intro hx
    obtain ⟨m, hm, hCell⟩ := h.cellOf x (hOpen ▸ hx)
    exact ⟨⟨m, h.reached _ _ hm, hCell⟩, h.leaf x hx⟩
  · rintro ⟨⟨m, hReaches, hCell⟩, hLeaf⟩
    rcases h.complete _ m (hAll _ _ hReaches) _ _ hCell with hx | ⟨below, hBelow, -⟩
    · exact hOpen ▸ hx
    · rw [hLeaf] at hBelow
      cases hBelow

/-- **A search that finds nothing but the top again has nothing to find.** All instances are copies of
instances found, and those have neither net names nor cells that stay. -/
theorem Covers.enumerates_of_loop (h : g.Covers d top [x]) (hLeaves : g.leaves = [])
    (hNext : g.next = []) (hLoop : d.expandable? x.cell.type = some top)
    (hNames : ∀ p m, (p, m) ∈ g.scopes → m.netnames = []) : d.Enumerates top g.leaves g.scopes := by
  have hOpen : g.unexpanded [x] = [x] := by rw [unexpanded, hLeaves, hNext]; rfl
  -- below any instance found there are only modules of instances found
  have hExpands : ∀ p m, (p, m) ∈ g.scopes → ∀ (i : Nat) c, m.cells[i]? = some c →
      ∃ below p', d.expandable? c.type = some below ∧ (p', below) ∈ g.scopes := by
    intro p m hMem i c hCell
    rcases h.complete p m hMem i c hCell with hx | ⟨below, hBelow, hScope⟩
    · rw [hOpen, List.mem_singleton] at hx
      refine ⟨top, [], ?_, h.root⟩
      rw [← hLoop, ← hx]
    · exact ⟨below, _, hBelow, hScope⟩
  have hAll : ∀ p m, d.Reaches top p m → ∃ p', (p', m) ∈ g.scopes := by
    intro p m hReaches
    induction hReaches with
    | root => exact ⟨[], h.root⟩
    | child _ hCell hBelow ih =>
      obtain ⟨p', hMem⟩ := ih
      obtain ⟨below, q, hBelow', hScope⟩ := hExpands p' _ hMem _ _ hCell
      rw [hBelow] at hBelow'
      cases hBelow'
      exact ⟨q, hScope⟩
  refine ⟨hLeaves ▸ List.nodup_nil, ?_, h.paths_nodup.of_map _, h.reached, ?_⟩
  · intro y
    rw [hLeaves]
    refine iff_of_false List.not_mem_nil ?_
    rintro ⟨⟨m, hReaches, hCell⟩, hLeaf⟩
    obtain ⟨p', hMem⟩ := hAll _ _ hReaches
    obtain ⟨below, -, hBelow, -⟩ := hExpands p' m hMem _ _ hCell
    rw [hLeaf] at hBelow
    cases hBelow
  · intro p m hReaches hSome
    obtain ⟨p', hMem⟩ := hAll p m hReaches
    exact absurd (hNames p' m hMem) hSome

end Elaboration

end ProbeAtlas
