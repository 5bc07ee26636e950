import Mathlib.Data.List.Forall2
import ProbeAtlas.Proofs.Provenance

/-!
# ProbeAtlas — flattening elaborates the hierarchy

Flattening takes cells level by level, and in doing so it searches the hierarchy. The state of the
search (`Elaboration`) does not appear in the program; `Elaboration.Matches` relates it to the state
that does: cell by cell and net name by net name, the flat top holds copies of what was found. The
induction over cells and levels does not depend on what is said about the two (`Elaboration.Follows`).

The levels end because the depths recorded under the names of cells never lie below their levels, even
where several cells share a name and the latest record hides the others (`flattenLevels_done`).

Main result: `Design.flatten_elaborates` — a flattening that finishes leaves a copy of every
cell of the hierarchy that stays, and a copy of every net name of an instance, in the top and nothing
else.
-/

namespace ProbeAtlas

/-! ## One cell -/

/-- What taking the first cell of a level can do: the cell stays, its contents take its place, or it is
the last cell of all and instantiates a top that has nothing else in it. -/
theorem Design.flattenLevel_cons {d : Design} {top : String} {c : Cell} {rest : List Cell} {s s' : Flat}
    (h : d.flattenLevel top (c :: rest) s = .ok s') :
    (d.expandable? c.type = none ∧
      d.flattenLevel top rest { s with kept := s.kept.push c } = .ok s') ∨
    (∃ child, d.expandable? c.type = some child ∧ s.depthOf c.name ≤ d.modules.length ∧
      d.flattenLevel top rest (s.inline c child) = .ok s') ∨
    (∃ child, d.expandable? c.type = some child ∧ child.name = top ∧ rest = [] ∧
      s.isBare = true ∧ s' = s) := by
  rw [flattenLevel] at h
  split at h
  · next hNone => exact Or.inl ⟨hNone, h⟩
  · next child hChild =>
    split at h
    · cases h
    · next hDepth =>
      split at h
      · next hName =>
        split at h
        · next hEnd =>
          cases h
          obtain ⟨hRest, hBare⟩ := Bool.and_eq_true_iff.mp hEnd
          exact Or.inr (Or.inr ⟨child, hChild, hName, List.isEmpty_iff.mp hRest, hBare, rfl⟩)
        · cases h
      · exact Or.inr (Or.inl ⟨child, hChild, Nat.le_of_not_lt hDepth, h⟩)

-- ---------------------------------------------------------------------------
-- Levels end
-- ---------------------------------------------------------------------------

namespace Flat

@[simp] theorem pending_inline (s : Flat) (cell : Cell) (child : Module) :
    (s.inline cell child).pending.toList =
      s.pending.toList ++ (inlineCell cell child s.counter).cells := by
  simp [inline]

@[simp] theorem netnames_inline (s : Flat) (cell : Cell) (child : Module) :
    (s.inline cell child).netnames.toList =
      s.netnames.toList ++ (inlineCell cell child s.counter).netnames := by
  simp [inline]

theorem isBare_iff {s : Flat} :
    s.isBare = true ↔ s.kept = #[] ∧ s.pending = #[] ∧ s.netnames = #[] := by
  rw [isBare, Bool.and_eq_true, Bool.and_eq_true, Array.isEmpty_iff, Array.isEmpty_iff,
    Array.isEmpty_iff, and_assoc]

/-- The latest record under a name counts. -/
theorem lookup_foldl_push (cells : List Cell) (depth : Nat) (depths : List (String × Nat))
    (name : String) :
    (cells.foldl (fun ds c => (c.name, depth) :: ds) depths).lookup name =
      if name ∈ cells.map Cell.name then some depth else depths.lookup name := by
  induction cells generalizing depths with
  | nil => simp
  | cons c cells ih =>
    rw [List.foldl_cons, ih, List.lookup_cons, List.map_cons]
    by_cases hRest : name ∈ cells.map Cell.name
    · rw [if_pos hRest, if_pos (List.mem_cons_of_mem _ hRest)]
    · rw [if_neg hRest]
      by_cases hFirst : name = c.name
      · rw [hFirst, beq_self_eq_true, if_pos (List.mem_cons_self ..)]
      · rw [beq_false_of_ne hFirst, if_neg (by simp [hFirst, hRest])]

/-- Inlining changes records for the names of the cells put in only. -/
theorem lookup_inline (s : Flat) (cell : Cell) (child : Module) (name : String) :
    (s.inline cell child).depths.lookup name =
      if name ∈ (inlineCell cell child s.counter).cells.map Cell.name then some (s.depthOf cell.name)
      else s.depths.lookup name :=
  lookup_foldl_push _ _ _ _

theorem depthOf_inline (s : Flat) (cell : Cell) (child : Module) (name : String) :
    (s.inline cell child).depthOf name =
      if name ∈ (inlineCell cell child s.counter).cells.map Cell.name then s.depthOf cell.name + 1
      else s.depthOf name := by
  rw [depthOf, lookup_inline]
  split <;> rfl

end Flat

namespace Design

/-- The cells to come lie deeper than a level. -/
def Deep (level : Nat) (s : Flat) (cells : List Cell) : Prop :=
  ∀ c ∈ cells, level < s.depthOf c.name

theorem Deep.inline {level : Nat} {s : Flat} {cells : List Cell} {cell : Cell} {child : Module}
    (h : Deep level s cells) (hCell : level ≤ s.depthOf cell.name) :
    Deep level (s.inline cell child) cells := by
  intro c hc
  have := h c hc
  rw [Flat.depthOf_inline]
  split <;> omega

/-- A level leaves cells of the next level, and none if it is the last one. -/
theorem flattenLevel_deep {d : Design} {top : String} {level : Nat} {cells : List Cell} {s s' : Flat}
    (h : d.flattenLevel top cells s = .ok s') (hCells : Deep level s cells)
    (hPending : Deep (level + 1) s s.pending.toList) :
    Deep (level + 1) s' s'.pending.toList ∧
      (d.modules.length ≤ level → s.pending = #[] → s'.pending = #[]) := by
  induction cells generalizing s with
  | nil =>
    cases h
    exact ⟨hPending, fun _ hNone => hNone⟩
  | cons c rest ih =>
    obtain ⟨hFirst, hRest⟩ := List.forall_mem_cons.mp hCells
    rcases flattenLevel_cons h with ⟨-, h⟩ | ⟨child, -, hDepth, h⟩ | ⟨-, -, -, -, -, rfl⟩
    · have hKept := ih h hRest hPending
      exact hKept
    · have hDeep : level + 1 ≤ s.depthOf c.name := hFirst
      have hNext : Deep (level + 1) (s.inline c child) (s.inline c child).pending.toList := by
        intro c' hc'
        rw [Flat.pending_inline, List.mem_append] at hc'
        rcases hc' with hc' | hc'
        · exact Deep.inline hPending hDeep c' hc'
        · rw [Flat.depthOf_inline, if_pos (List.mem_map_of_mem hc')]
          omega
      have hLater := ih h (Deep.inline hRest (Nat.le_of_lt hFirst)) hNext
      exact ⟨hLater.1, fun hLast => absurd hDeep (by omega)⟩
    · exact ⟨hPending, fun _ hNone => hNone⟩

theorem flattenLevels_of_pending {d : Design} {top : String} {fuel : Nat} {s : Flat}
    (h : s.pending = #[]) : d.flattenLevels top fuel s = .ok s := by
  cases fuel with
  | zero => rfl
  | succ fuel => rw [flattenLevels, if_pos (Array.isEmpty_iff.mpr h)]

/-- **Flattening ends with no cell left to be looked at.** -/
theorem flattenLevels_done {d : Design} {top : String} {fuel level : Nat} {s s' : Flat}
    (h : d.flattenLevels top fuel s = .ok s') (hFuel : level + fuel = d.modules.length + 1)
    (hPending : Deep level s s.pending.toList)
    (hLast : d.modules.length < level → s.pending = #[]) : s'.pending = #[] := by
  induction fuel generalizing level s with
  | zero =>
    cases h
    exact hLast (by omega)
  | succ fuel ih =>
    rw [flattenLevels] at h
    split at h
    · next hNone =>
      cases h
      exact Array.isEmpty_iff.mp hNone
    · split at h
      · cases h
      · next s₁ hLevel =>
        obtain ⟨hDeep, hEnd⟩ := flattenLevel_deep hLevel hPending (by simp [Deep])
        exact ih h (by omega) hDeep fun hLevel => hEnd (by omega) rfl

/-- As many levels as the design has modules, and one more, are enough for every top. -/
theorem flattenLevels_initialFlat {d : Design} {top : Module} {s : Flat}
    (h : d.flattenLevels top.name (d.modules.length + 1) (initialFlat top) = .ok s) : s.pending = #[] := by
  have hDeep : Deep 0 (initialFlat top) (initialFlat top).pending.toList := fun c _ => Nat.succ_pos _
  exact flattenLevels_done h (Nat.zero_add _) hDeep (by omega)

end Design

-- ---------------------------------------------------------------------------
-- The search behind the state
-- ---------------------------------------------------------------------------

/-- The net names of instances. -/
def namesOf (scopes : List (InstancePath × Module)) : List (InstancePath × NetName) :=
  scopes.flatMap fun scope => scope.2.netnames.map fun n => (scope.1, n)

namespace Elaboration

theorem namesOf_expand (g : Elaboration) (x : Placement) (below : Module) :
    namesOf (g.expand x below).scopes = namesOf g.scopes ++ below.netnames.map fun n => (x.path, n) := by
  simp [namesOf, expand]

/-- The flat top holds copies of what the search has found; `cells` are the ones taken now. -/
structure Matches (d : Design) (top : Module) (ledger : Ledger) (g : Elaboration)
    (front : List Placement) (cells : List Cell) (s : Flat) : Prop where
  kept     : List.Forall₂ (fun x c => CellCopy d top ledger x.scope x.cell c) g.leaves s.kept.toList
  taken    : List.Forall₂ (fun x c => CellCopy d top ledger x.scope x.cell c) front cells
  pending  : List.Forall₂ (fun x c => CellCopy d top ledger x.scope x.cell c) g.next s.pending.toList
  netnames : List.Forall₂ (fun e n => NameCopy d top ledger e.1 e.2 n) (namesOf g.scopes)
               s.netnames.toList
  fresh    : ledger.Fresh (Design.maxNet top) s.counter

variable {d : Design} {top : Module} {ledger : Ledger} {g : Elaboration} {front : List Placement}
  {cells : List Cell} {s s' : Flat}

theorem Matches.keep {x : Placement} {c : Cell} (h : g.Matches d top ledger (x :: front) (c :: cells) s) :
    (g.keep x).Matches d top ledger front cells { s with kept := s.kept.push c } := by
  obtain ⟨hFirst, hFront⟩ := List.forall₂_cons.mp h.taken
  refine ⟨?_, hFront, h.pending, h.netnames, h.fresh⟩
  rw [Array.toList_push]
  exact List.rel_append h.kept (.cons hFirst .nil)

/-- Copies of the cells of a module are copies of its placements. -/
theorem forall₂_placements {p : InstancePath} {m : Module} {copies : List Cell}
    (h : List.Forall₂ (CellCopy d top ledger p) m.cells copies) :
    List.Forall₂ (fun x c => CellCopy d top ledger x.scope x.cell c) (placements p m) copies := by
  rw [placements, List.forall₂_map_left_iff]
  rw [← List.zipIdx_map_fst 0 m.cells, List.forall₂_map_left_iff] at h
  exact h

theorem Matches.inline {x : Placement} {c : Cell} {below : Module}
    (h : g.Matches d top ledger (x :: front) (c :: cells) s) (hCovers : g.Covers d top (x :: front))
    (hBelow : d.expandable? x.cell.type = some below) :
    ∃ ledger', (g.expand x below).Matches d top ledger' front cells (s.inline c below) := by
  obtain ⟨hFirst, hFront⟩ := List.forall₂_cons.mp h.taken
  obtain ⟨m, hm, hCell⟩ := hCovers.hasCell
  obtain ⟨ledger', hSub, hFresh, hCells, hNames⟩ := inlineCell_copies hm hCell hBelow hFirst h.fresh
  -- what was a copy before is one still
  have hOld : ∀ (x : Placement) c, CellCopy d top ledger x.scope x.cell c →
      CellCopy d top ledger' x.scope x.cell c := fun _ _ hc => hc.mono hSub
  refine ⟨ledger', h.kept.imp hOld, hFront.imp hOld, ?_, ?_, hFresh⟩
  · rw [Flat.pending_inline]
    exact List.rel_append (h.pending.imp hOld) (forall₂_placements hCells)
  · rw [Flat.netnames_inline, namesOf_expand]
    refine List.rel_append (h.netnames.imp fun _ _ hn => hn.mono hSub) ?_
    rw [List.forall₂_map_left_iff]
    exact hNames

/-- There is nothing left to take, or only a cell that instantiates a top with nothing in it. -/
def Ended (d : Design) (top : Module) (front : List Placement) (s : Flat) : Prop :=
  front = [] ∨ ∃ x, front = [x] ∧ d.expandable? x.cell.type = some top ∧ s.isBare = true

/-- A property of the search and the state behind it that flattening preserves cell by cell. -/
structure Follows (d : Design) (top : Module)
    (I : Elaboration → List Placement → List Cell → Flat → Prop) : Prop where
  types   : ∀ {g front cells s}, I g front cells s →
              List.Forall₂ (fun x c => c.type = x.cell.type) front cells
  keep    : ∀ {g x front c cells s}, I g (x :: front) (c :: cells) s →
              I (g.keep x) front cells { s with kept := s.kept.push c }
  inline  : ∀ {g x front c cells s below}, I g (x :: front) (c :: cells) s →
              Covers d top g (x :: front) → d.expandable? x.cell.type = some below →
              I (g.expand x below) front cells (s.inline c below)
  advance : ∀ {g s}, I g [] [] s → I g.advance g.next s.pending.toList { s with pending := #[] }

theorem follows_matches (d : Design) (top : Module) :
    Follows d top fun g front cells s => ∃ ledger, g.Matches d top ledger front cells s where
  types := fun ⟨_, h⟩ => h.taken.imp fun _ _ hc => hc.type
  keep := fun ⟨ledger, h⟩ => ⟨ledger, h.keep⟩
  inline := fun ⟨_, h⟩ hCovers hBelow => h.inline hCovers hBelow
  advance := fun ⟨ledger, h⟩ => ⟨ledger, h.kept, h.pending, .nil, h.netnames, h.fresh⟩

theorem Follows.and {I J : Elaboration → List Placement → List Cell → Flat → Prop}
    (hI : Follows d top I) (hJ : Follows d top J) :
    Follows d top fun g front cells s => I g front cells s ∧ J g front cells s where
  types := fun h => hI.types h.1
  keep := fun h => ⟨hI.keep h.1, hJ.keep h.2⟩
  inline := fun h hCovers hBelow => ⟨hI.inline h.1 hCovers hBelow, hJ.inline h.2 hCovers hBelow⟩
  advance := fun h => ⟨hI.advance h.1, hJ.advance h.2⟩

end Elaboration

namespace Design

theorem find?_of_expandable? {d : Design} {type : String} {m : Module}
    (h : d.expandable? type = some m) : d.find? type = some m :=
  (Option.filter_eq_some_iff.mp h).1

theorem name_of_find? {d : Design} {name : String} {m : Module} (h : d.find? name = some m) :
    m.name = name := by
  simpa using List.find?_some h

theorem find?_top {d : Design} {top : Module} (h : d.topModule? = some top) :
    d.find? top.name = some top := by
  obtain ⟨name, -, hFind⟩ := Option.bind_eq_some_iff.mp h
  rw [name_of_find? hFind]
  exact hFind

/-- The only module of the top's name that a cell can mean is the top. -/
theorem eq_top_of_expandable? {d : Design} {type : String} {top m : Module}
    (hTop : d.topModule? = some top) (h : d.expandable? type = some m) (hName : m.name = top.name) :
    m = top := by
  have hFind := find?_of_expandable? h
  rw [← name_of_find? hFind, hName, find?_top hTop] at hFind
  exact (Option.some.inj hFind).symm

/-- The module of an instance below the top is a module of the design. -/
theorem Reaches.mem_modules {d : Design} {top m : Module} {p : InstancePath}
    (h : d.Reaches top p m) (hp : p ≠ []) : m ∈ d.modules := by
  cases h with
  | root => exact absurd rfl hp
  | child _ _ hBelow => exact List.mem_of_find?_eq_some (find?_of_expandable? hBelow)

theorem Reaches.mem_modules_of_top {d : Design} {top m : Module} {p : InstancePath}
    (hTop : d.topModule? = some top) (h : d.Reaches top p m) : m ∈ d.modules := by
  cases hReaches : h with
  | root => exact List.mem_of_find?_eq_some (find?_top hTop)
  | child => exact h.mem_modules (by simp)

open Elaboration

variable {d : Design} {top : Module} {ledger : Ledger} {g : Elaboration} {front : List Placement}
  {cells : List Cell} {s s' : Flat}

section Follows

variable {I : Elaboration → List Placement → List Cell → Flat → Prop}

/-- **One level.** By induction on the cells taken; the search follows the program cell by cell. -/
theorem flattenLevel_follows (hI : Follows d top I) (hTop : d.topModule? = some top)
    (h : d.flattenLevel top.name cells s = .ok s') (hCovers : g.Covers d top front)
    (hStart : I g front cells s) :
    ∃ g front cells, Covers d top g front ∧ I g front cells s' ∧ Ended d top front s' := by
  induction cells generalizing g front s with
  | nil =>
    cases h
    have hFront := List.forall₂_nil_right_iff.mp (hI.types hStart)
    exact ⟨g, front, [], hCovers, hStart, Or.inl hFront⟩
  | cons c rest ih =>
    obtain ⟨x, front, hType, hTypes, rfl⟩ := List.forall₂_cons_right_iff.mp (hI.types hStart)
    rcases flattenLevel_cons h with ⟨hNone, h⟩ | ⟨child, hChild, -, h⟩ |
      ⟨child, hChild, hName, rfl, hBare, rfl⟩
    · rw [hType] at hNone
      exact ih h (hCovers.keep hNone) (hI.keep hStart)
    · rw [hType] at hChild
      exact ih h (hCovers.expand hChild) (hI.inline hStart hCovers hChild)
    · cases eq_top_of_expandable? hTop hChild hName
      cases List.forall₂_nil_right_iff.mp hTypes
      rw [hType] at hChild
      exact ⟨g, [x], [c], hCovers, hStart, Or.inr ⟨x, rfl, hChild, hBare⟩⟩

/-- **All levels.** -/
theorem flattenLevels_follows (hI : Follows d top I) (hTop : d.topModule? = some top) {fuel : Nat}
    (h : d.flattenLevels top.name fuel s = .ok s') (hCovers : g.Covers d top [])
    (hStart : I g [] [] s) :
    ∃ g front cells, Covers d top g front ∧ I g front cells s' ∧ Ended d top front s' := by
  induction fuel generalizing g s with
  | zero =>
    cases h
    exact ⟨g, [], [], hCovers, hStart, Or.inl rfl⟩
  | succ fuel ih =>
    rw [flattenLevels] at h
    split at h
    · cases h
      exact ⟨g, [], [], hCovers, hStart, Or.inl rfl⟩
    · split at h
      · cases h
      · next s₁ hLevel =>
        obtain ⟨g₁, front₁, cells₁, hCovers₁, hInv, hEnded⟩ :=
          flattenLevel_follows hI hTop hLevel hCovers.advance (hI.advance hStart)
        rcases hEnded with rfl | ⟨x, rfl, hLoop, hBare⟩
        · cases List.forall₂_nil_left_iff.mp (hI.types hInv)
          exact ih h hCovers₁ hInv
        · -- a bare top has no next level
          rw [flattenLevels_of_pending (Flat.isBare_iff.mp hBare).2.1] at h
          cases h
          exact ⟨g₁, [x], cells₁, hCovers₁, hInv, Or.inr ⟨x, rfl, hLoop, hBare⟩⟩

end Follows

-- ---------------------------------------------------------------------------
-- The start
-- ---------------------------------------------------------------------------

theorem le_foldl_max (ids : List Nat) (start : Nat) :
    start ≤ ids.foldl max start ∧ ∀ id ∈ ids, id ≤ ids.foldl max start := by
  induction ids generalizing start with
  | nil => simp
  | cons id ids ih =>
    obtain ⟨hStart, hRest⟩ := ih (max start id)
    rw [List.foldl_cons]
    refine ⟨by omega, List.forall_mem_cons.mpr ⟨by omega, hRest⟩⟩

/-- No net in a cell or under a name of a module exceeds the largest one. -/
theorem le_maxNet {m : Module} {bits : List Bit} {id : Nat} (hNet : .net id ∈ bits)
    (hBits : (∃ n ∈ m.netnames, n.bits = bits) ∨
      ∃ c ∈ m.cells, ∃ port, (port, bits) ∈ c.connections) : id ≤ maxNet m := by
  have hMem : id ∈ netsOf bits := List.mem_filterMap.mpr ⟨_, hNet, rfl⟩
  refine (le_foldl_max _ 0).2 id ?_
  rcases hBits with ⟨n, hn, rfl⟩ | ⟨c, hc, port, hBits⟩
  · exact List.mem_append_left _ (List.mem_append_right _ (List.mem_flatMap.mpr ⟨n, hn, hMem⟩))
  · exact List.mem_append_right _ (List.mem_flatMap.mpr
      ⟨c, hc, List.mem_flatMap.mpr ⟨(port, bits), hBits, hMem⟩⟩)

/-- The bits of the top are copies of themselves. -/
theorem becomes_self {bits : List Bit} (h : ∀ id, .net id ∈ bits → id ≤ maxNet top) :
    List.Forall₂ (Becomes d top ledger []) bits bits := by
  rw [List.forall₂_same]
  intro b hb
  cases b with
  | const level => exact .const level
  | net id => exact .root (h id hb)

theorem matches_start (d : Design) (top : Module) :
    (start top).Matches d top [] [] [] (initialFlat top) := by
  refine ⟨.nil, .nil, forall₂_placements ?_, ?_, ?_⟩
  · show List.Forall₂ _ top.cells top.cells.toArray.toList
    rw [List.toList_toArray, List.forall₂_same]
    intro c hc
    refine ⟨(nameBelow_nil _).symm, rfl, ?_⟩
    rw [List.forall₂_same]
    intro a ha
    exact ⟨rfl, becomes_self fun id hid => le_maxNet hid (Or.inr ⟨c, hc, a.1, ha⟩)⟩
  · show List.Forall₂ _ (namesOf [([], top)]) top.netnames.toArray.toList
    rw [List.toList_toArray]
    have hNames : namesOf [([], top)] = top.netnames.map fun n => ([], n) := by simp [namesOf]
    rw [hNames, List.forall₂_map_left_iff, List.forall₂_same]
    intro n hn
    exact ⟨(nameBelow_nil _).symm, becomes_self fun id hid => le_maxNet hid (Or.inl ⟨n, hn, rfl⟩), rfl,
      rfl⟩
  · exact ⟨Nat.le_refl _, by simp, by simp, by simp⟩

-- ---------------------------------------------------------------------------
-- The flat design
-- ---------------------------------------------------------------------------

/-- The cells and net names of a flat top are copies of the cells that stay in the hierarchy and of the
net names of its instances. -/
structure Flattened (d : Design) (top : Module) (leaves : List Placement)
    (scopes : List (InstancePath × Module)) (ledger : Ledger) (cells : List Cell)
    (netnames : List NetName) : Prop where
  enumerates : d.Enumerates top leaves scopes
  cellCopies : List.Forall₂ (fun x c => CellCopy d top ledger x.scope x.cell c) leaves cells
  nameCopies : List.Forall₂ (fun e n => NameCopy d top ledger e.1 e.2 n) (namesOf scopes) netnames
  fresh      : ∃ counter, ledger.Fresh (maxNet top) counter

/-- A search that has ended, without cells put off, has found what the flat top holds. -/
theorem flattened_of_matches (hCovers : g.Covers d top front)
    (hMatches : g.Matches d top ledger front cells s) (hEnded : Ended d top front s)
    (hNone : s.pending = #[]) : Flattened d top g.leaves g.scopes ledger s.cells s.netnames.toList := by
  have hNext : g.next = [] := by
    have hPending := hMatches.pending
    rw [hNone] at hPending
    exact List.forall₂_nil_right_iff.mp hPending
  have hCells : s.cells = s.kept.toList := by rw [Flat.cells, hNone, List.append_nil]
  refine ⟨?_, hCells ▸ hMatches.kept, hMatches.netnames, _, hMatches.fresh⟩
  rcases hEnded with rfl | ⟨x, rfl, hLoop, hBare⟩
  · exact hCovers.enumerates_of_done hNext
  · obtain ⟨hKept, -, hNames⟩ := Flat.isBare_iff.mp hBare
    have hLeaves : g.leaves = [] := by
      have hCopies := hMatches.kept
      rw [hKept] at hCopies
      exact List.forall₂_nil_right_iff.mp hCopies
    have hScopes : namesOf g.scopes = [] := by
      have hCopies := hMatches.netnames
      rw [hNames] at hCopies
      exact List.forall₂_nil_right_iff.mp hCopies
    refine hCovers.enumerates_of_loop hLeaves hNext hLoop fun p m hMem => ?_
    have hEach := List.flatMap_eq_nil_iff.mp hScopes (p, m) hMem
    exact List.map_eq_nil_iff.mp hEach

/-- The design whose top has the given contents. -/
def withContents (d : Design) (top : Module) (cells : List Cell) (netnames : List NetName) : Design :=
  { d with
    modules := d.modules.map fun m => if m.name = top.name then { m with cells, netnames } else m
    flattened := true }

/-- **Flattening follows a search to its end.** What holds at the start and is preserved for every cell
holds of the state that is written back. -/
theorem flatten_follows {d d' : Design} (h : d.flatten = (d', none))
    {I : Module → Elaboration → List Placement → List Cell → Flat → Prop}
    (hI : ∀ top, Follows d top (I top)) (hStart : ∀ top, I top (start top) [] [] (initialFlat top)) :
    ∃ top g front cells s, d.topModule? = some top ∧ Covers d top g front ∧ I top g front cells s ∧
      Ended d top front s ∧ s.pending = #[] ∧ d' = d.withContents top s.cells s.netnames.toList := by
  unfold flatten at h
  split at h
  · cases h
  · next top hTop =>
    dsimp only at h
    split at h
    · next s hLevels =>
      obtain ⟨rfl, -⟩ := Prod.mk.inj h
      obtain ⟨g, front, cells, hCovers, hInv, hEnded⟩ :=
        flattenLevels_follows (hI top) hTop hLevels (covers_start d top) (hStart top)
      exact ⟨top, g, front, cells, s, hTop, hCovers, hInv, hEnded, flattenLevels_initialFlat hLevels, rfl⟩
    · cases h

/-- **Flattening elaborates the hierarchy.** -/
theorem flatten_elaborates {d d' : Design} (h : d.flatten = (d', none)) :
    ∃ top leaves scopes ledger cells netnames, d.topModule? = some top ∧
      Flattened d top leaves scopes ledger cells netnames ∧
      d' = d.withContents top cells netnames := by
  obtain ⟨top, g, front, cells, s, hTop, hCovers, ⟨ledger, hMatches⟩, hEnded, hDone, hd'⟩ :=
    flatten_follows h (follows_matches d) fun top => ⟨[], matches_start d top⟩
  exact ⟨top, g.leaves, g.scopes, ledger, s.cells, s.netnames.toList, hTop,
    flattened_of_matches hCovers hMatches hEnded hDone, hd'⟩

end Design

end ProbeAtlas
