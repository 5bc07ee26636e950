import Mathlib.Data.List.Perm.Subperm
import ProbeAtlas.Proofs.InstanceNames
import ProbeAtlas.Proofs.Recursion

/-!
# ProbeAtlas — depths under names

Flattening takes a hierarchy for recursive when a cell lies deeper than the design has modules. In a
hierarchy that is not recursive no module occurs twice on a way, so no cell lies that deep
(`Design.Reaches.length_lt_modules`). But depths are kept under the names of cells, and a cell may find the
depth of another one under its name.

As long as no instance has the name of a cell of another depth, what is found under the name of an instance
is its own depth (`Timed.depthOf_eq`), and the hierarchy is flattened. Otherwise a hierarchy without
recursion may be refused.

Main results:

* `Design.flatten_accepts` — a hierarchy without recursion is flattened, or an instance has the name of a
  cell of another depth; no such names arise where no cell is named like something inside an instance.
* `stemText_refused` — three instances of one module, refused as recursive.
-/

namespace ProbeAtlas

namespace Design

variable {d : Design} {top m : Module} {p : InstancePath}

-- ---------------------------------------------------------------------------
-- Ways without recursion
-- ---------------------------------------------------------------------------

/-- On a way without recursion there are as many modules as cells, and one more. By induction on the way:
a module that comes again would lie below itself. -/
theorem Reaches.exists_modules (hTop : d.topModule? = some top) (hAcyclic : ¬d.Recursive top)
    (h : d.Reaches top p m) : ∃ ms : List Module, ms.length = p.length + 1 ∧ ms.Nodup ∧ ms ⊆ d.modules ∧
      ∀ above ∈ ms, Relation.ReflTransGen d.Contains above m := by
  induction h with
  | root => exact ⟨[top], rfl, List.nodup_singleton _,
      by simpa using Reaches.mem_modules_of_top hTop .root, by simp [Relation.ReflTransGen.refl]⟩
  | @child p m below c i hParent hCell hBelow ih =>
    obtain ⟨ms, hLength, hNodup, hSub, hAbove⟩ := ih
    have hStep : d.Contains m below := ⟨c, List.mem_of_getElem? hCell, hBelow⟩
    have hReaches : d.Reaches top (p ++ [(c, i)]) below := .child hParent hCell hBelow
    have hNew : below ∉ ms := fun hMem =>
      hAcyclic ⟨below, hReaches.reflTransGen, Relation.TransGen.tail' (hAbove below hMem) hStep⟩
    refine ⟨below :: ms, by simp [hLength], List.nodup_cons.mpr ⟨hNew, hNodup⟩,
      List.cons_subset.mpr ⟨hReaches.mem_modules_of_top hTop, hSub⟩, ?_⟩
    intro above hMem
    rcases List.mem_cons.mp hMem with rfl | hMem
    · exact .refl
    · exact (hAbove above hMem).tail hStep

/-- **Without recursion no instance lies as deep as the design has modules.** -/
theorem Reaches.length_lt_modules (hTop : d.topModule? = some top) (hAcyclic : ¬d.Recursive top)
    (h : d.Reaches top p m) : p.length < d.modules.length := by
  obtain ⟨ms, hLength, hNodup, hSub, -⟩ := h.exists_modules hTop hAcyclic
  have hBound := (List.subperm_of_subset hNodup hSub).length_le
  omega

-- ---------------------------------------------------------------------------
-- The depths on record
-- ---------------------------------------------------------------------------

/-- An instance has the name of a cell of another depth. -/
def DepthClash (d : Design) (top : Module) : Prop :=
  ∃ x y, d.HasCell top x ∧ d.HasCell top y ∧ (d.expandable? x.cell.type).isSome = true ∧
    x.name = y.name ∧ x.scope.length ≠ y.scope.length

end Design

theorem Renaming.names_cells (r : Renaming) (cell : String) (cs : List Cell) :
    (r.cells cell cs).1.map Cell.name = cs.map fun c => cell ++ "." ++ c.name := by
  induction cs generalizing r with
  | nil => rfl
  | cons c cs ih =>
    rw [cells]
    simp [ih]

/-- What takes the place of a cell is named like the cells of the instance. -/
theorem names_inlineCell {x : Placement} {c : Cell} (h : c.name = x.name) (below : Module) (counter : Nat) :
    (inlineCell c below counter).cells.map Cell.name = (placements x.path below).map Placement.name := by
  rw [inlineCell]
  dsimp only
  rw [Renaming.names_cells, h, placements, List.map_map]
  nth_rewrite 1 [← List.zipIdx_map_fst 0 below.cells]
  rw [List.map_map]
  refine List.map_congr_left fun e _ => ?_
  exact (x.nameBelow_path e.1.name).symm

namespace Elaboration

open Design

variable {d : Design} {top : Module} {g : Elaboration} {front : List Placement} {cells : List Cell} {s : Flat}

/-- The flat top matches the search, and every depth on record is that of a cell of this name. Cells
inside instances have a record. -/
structure Timed (d : Design) (top : Module) (g : Elaboration) (front : List Placement) (cells : List Cell)
    (s : Flat) : Prop where
  copies   : ∃ ledger, g.Matches d top ledger front cells s
  recorded : ∀ name depth, s.depths.lookup name = some depth →
               ∃ y, d.HasCell top y ∧ y.name = name ∧ y.scope.length = depth
  known    : ∀ x ∈ front ++ g.next, x.scope ≠ [] → (s.depths.lookup x.name).isSome = true

/-- What is found under the name of an instance is its own depth. -/
theorem Timed.depthOf_eq {x : Placement} {child : Module} (h : g.Timed d top (x :: front) cells s)
    (hClear : ¬d.DepthClash top) (hCovers : g.Covers d top (x :: front))
    (hChild : d.expandable? x.cell.type = some child) : s.depthOf x.name = x.path.length := by
  rw [Flat.depthOf, Placement.path, List.length_append, List.length_singleton]
  cases hRecord : s.depths.lookup x.name with
  | none =>
    have hScope : x.scope = [] := by
      by_contra hScope
      have hKnown := h.known x (by simp) hScope
      rw [hRecord] at hKnown
      cases hKnown
    rw [hScope]
    rfl
  | some depth =>
    obtain ⟨y, hy, hName, hDepth⟩ := h.recorded _ _ hRecord
    have hSame : x.scope.length = y.scope.length := by
      by_contra hNe
      exact hClear ⟨x, y, hCovers.hasCell, hy, by rw [hChild]; rfl, hName.symm, hNe⟩
    rw [hSame, hDepth]
    rfl

theorem Timed.inline {x : Placement} {c : Cell} {below : Module}
    (h : g.Timed d top (x :: front) (c :: cells) s) (hClear : ¬d.DepthClash top)
    (hCovers : g.Covers d top (x :: front)) (hBelow : d.expandable? x.cell.type = some below) :
    (g.expand x below).Timed d top front cells (s.inline c below) := by
  obtain ⟨ledger, hMatches⟩ := h.copies
  have hName : c.name = x.name := (List.forall₂_cons.mp hMatches.taken).1.name
  have hDepth : s.depthOf c.name = x.path.length := hName ▸ h.depthOf_eq hClear hCovers hBelow
  refine ⟨hMatches.inline hCovers hBelow, fun name depth hRecord => ?_, fun y hy hScope => ?_⟩
  · rw [Flat.lookup_inline, names_inlineCell hName] at hRecord
    split at hRecord
    · next hMem =>
      obtain ⟨y, hy, rfl⟩ := List.mem_map.mp hMem
      obtain ⟨hScope, hyCell⟩ := mem_placements.mp hy
      refine ⟨y, ⟨below, hScope ▸ hCovers.reaches_path hBelow, hyCell⟩, rfl, ?_⟩
      rw [hScope, ← hDepth]
      exact Option.some.inj hRecord
    · exact h.recorded name depth hRecord
  · rw [Flat.lookup_inline, names_inlineCell hName]
    split
    · rfl
    · next hNew =>
      have hOld : y ∈ x :: front ++ g.next := by
        rw [expand, ← List.append_assoc, List.mem_append] at hy
        rcases hy with hy | hy
        · exact List.mem_cons_of_mem _ hy
        · exact absurd (List.mem_map_of_mem hy) hNew
      exact h.known y hOld hScope

/-- Records stay right as long as no instance has the name of a cell of another depth. -/
theorem follows_timed (hClear : ¬d.DepthClash top) :
    Follows d top fun g front cells s => g.Timed d top front cells s where
  types := fun h => (follows_matches d top).types h.copies
  keep := fun h => ⟨(follows_matches d top).keep h.copies, h.recorded,
    fun y hy => h.known y (List.mem_cons_of_mem _ hy)⟩
  inline := fun h hCovers hBelow => h.inline hClear hCovers hBelow
  advance := fun h => ⟨(follows_matches d top).advance h.copies, h.recorded,
    fun y hy => h.known y (by simpa [Elaboration.advance] using hy)⟩

theorem timed_start (d : Design) (top : Module) : (start top).Timed d top [] [] (initialFlat top) := by
  refine ⟨⟨[], matches_start d top⟩, fun name depth hRecord => ?_, fun x hx hScope => ?_⟩
  · cases hRecord
  · obtain ⟨hTop, -⟩ := mem_placements.mp hx
    exact absurd hTop hScope

end Elaboration

namespace Design

open Elaboration

variable {d : Design} {top : Module}

/-- Flattening succeeds, and no cell of the flat top can be expanded. -/
def FlattensFully (d : Design) : Prop :=
  ∃ flat flatTop, d.flatten = (flat, none) ∧ flat.topModule? = some flatTop ∧
    ∀ c ∈ flatTop.cells, flat.expandable? c.type = none

theorem flattensFully_of_flatten {flat : Design} (h : d.flatten = (flat, none)) : d.FlattensFully := by
  obtain ⟨top, leaves, scopes, ledger, cells, netnames, hTop, hFlattened, rfl⟩ := flatten_elaborates h
  exact ⟨_, _, h, topModule?_withContents hTop, fun c hc =>
    expandable?_withContents (hFlattened.expandable?_eq_none hc)⟩

/-- **A hierarchy without recursion is flattened** if no instance has the name of a cell of another
depth. -/
theorem flattensFully_of_clear (hTop : d.topModule? = some top) (hAcyclic : ¬d.Recursive top)
    (hClear : ¬d.DepthClash top) : d.FlattensFully := by
  rcases hFlatten : d.flatten with ⟨left, outcome⟩
  cases outcome with
  | none => exact flattensFully_of_flatten hFlatten
  | some impasse =>
    obtain ⟨⟨g, x, front, c, cells, s, hCovers, hTimed, hType, child, hChild, hCause⟩, -⟩ :=
      flatten_stuck hTop hFlatten (follows_timed hClear) (timed_start d top)
    rw [hType] at hChild
    rcases hCause with ⟨hDeep, -⟩ | ⟨rfl, -⟩
    · -- the cell lies as deep as its record says, which is not too deep
      obtain ⟨ledger, hMatches⟩ := hTimed.copies
      have hName : c.name = x.name := (List.forall₂_cons.mp hMatches.taken).1.name
      rw [hName, hTimed.depthOf_eq hClear hCovers hChild] at hDeep
      have hBound := (hCovers.reaches_path hChild).length_lt_modules hTop hAcyclic
      omega
    · exact absurd ⟨child, .refl, Below.of_covers hCovers hChild⟩ hAcyclic

/-- **Hierarchies without recursion.** Such a hierarchy is flattened fully, or it is refused as recursive
and some instance has the name of a cell of another depth. It is flattened if no cell is named like
something inside an instance beside it. -/
theorem flatten_accepts {choice : TopChoice} {text : String} (hParse : Design.parse choice text = .ok d)
    (hTop : d.topModule? = some top) (hAcyclic : ¬d.Recursive top) :
    (d.FlattensFully ∨
      d.DepthClash top ∧ ∃ left name, d.flatten = (left, some (.thrown (.recursive name)))) ∧
    ((∀ p m, d.Reaches top p m → ∀ c ∈ m.cells, ¬d.LooksBelow m c.name) → d.FlattensFully) := by
  refine ⟨?_, fun hNames => flattensFully_of_clear hTop hAcyclic ?_⟩
  · by_cases hClear : d.DepthClash top
    · have hNot : ¬d.Below top top := fun hBelow => hAcyclic ⟨top, .refl, hBelow⟩
      rcases flatten_outcomes hTop with ⟨left, name, hRefused, -⟩ | ⟨-, -, -, hBelow⟩ | ⟨-, hBelow⟩ |
        ⟨flat, hFlat, -⟩
      · exact Or.inr ⟨hClear, left, name, hRefused⟩
      · exact absurd hBelow hNot
      · exact absurd hBelow hNot
      · exact Or.inl (flattensFully_of_flatten hFlat)
    · exact Or.inl (flattensFully_of_clear hTop hAcyclic hClear)
  · rintro ⟨x, y, hx, hy, -, hName, hDepth⟩
    have hDistinct : ∀ p m, d.Reaches top p m → (m.cells.map Cell.name).Nodup := fun p m hm =>
      (parse_distinctParts hParse m (hm.mem_modules_of_top hTop)).cells
    exact hDepth (by rw [placement_unique hDistinct hNames hx hy hName])

end Design

/-! ## Instances of one module -/

/-- Instances of these names of a module with one cell. -/
def stemDesign (names : List String) : Design :=
  { modules :=
      [{ plainModule "top" (names.map fun name => ⟨name, "M", []⟩) [] with attributes := [("top", "1")] },
        plainModule "M" [⟨"b", "BUF", []⟩] []]
    top := some "top"
    flattened := false }

/-- The netlist text of the design with these instances. -/
def stemText (names : List String) : String :=
  String.ofList <| writeObject [("modules", writeObject
    [("top", writeObject
        [("attributes", writeObject [("top", ['1'])]),
          ("cells", writeObject <| names.map fun name =>
            (name, writeObject [("type", "\"M\"".toList)]))]),
      ("M", writeObject [("cells", writeObject [("b", writeObject [("type", "\"BUF\"".toList)])])])])]

/-- Only the top holds instances, so there is no recursion. -/
theorem stemDesign_not_recursive (names : List String) {top : Module}
    (hTop : (stemDesign names).topModule? = some top) : ¬(stemDesign names).Recursive top := by
  refine Design.not_recursive_of_rank (fun m => if m.name = "top" then 1 else 0) hTop ?_
  intro m hm c hc below hBelow
  rcases List.mem_cons.mp hm with rfl | hm
  · obtain ⟨name, -, rfl⟩ := List.mem_map.mp hc
    cases Option.some.inj hBelow
    simp [plainModule]
  · cases List.mem_singleton.mp hm
    cases List.mem_singleton.mp hc
    cases hBelow

/-- Dots do no harm where no instance is named after another one. -/
theorem stemText_accepted :
    Design.parse {} (stemText ["a", "c.b", "d.b"]) = .ok (stemDesign ["a", "c.b", "d.b"]) ∧
      (∃ top, (stemDesign ["a", "c.b", "d.b"]).topModule? = some top ∧
        ¬(stemDesign ["a", "c.b", "d.b"]).Recursive top) ∧
      (stemDesign ["a", "c.b", "d.b"]).FlattensFully := by
  have hParse : Design.parse {} (stemText ["a", "c.b", "d.b"]) = .ok (stemDesign ["a", "c.b", "d.b"]) := by
    rw [Design.parse, stemText, Json.read?_ofList]
    decide +kernel
  have hClear : ∀ m ∈ (stemDesign ["a", "c.b", "d.b"]).modules, ∀ c ∈ m.cells,
      ¬(stemDesign ["a", "c.b", "d.b"]).LooksBelow m c.name := by
    decide +kernel
  have hAcyclic := stemDesign_not_recursive ["a", "c.b", "d.b"] rfl
  refine ⟨hParse, ⟨_, rfl, hAcyclic⟩, (Design.flatten_accepts hParse rfl hAcyclic).2 fun p m hm => ?_⟩
  exact hClear m (hm.mem_modules_of_top rfl)

/-- **A hierarchy without recursion may be refused.** The first instance leaves a record under the name of
the second one, and that one under the name of the third. -/
theorem stemText_refused :
    Design.parse {} (stemText ["a", "a.b", "a.b.b"]) = .ok (stemDesign ["a", "a.b", "a.b.b"]) ∧
      (∃ top, (stemDesign ["a", "a.b", "a.b.b"]).topModule? = some top ∧
        ¬(stemDesign ["a", "a.b", "a.b.b"]).Recursive top) ∧
      (stemDesign ["a", "a.b", "a.b.b"]).flatten.2 = some (.thrown (.recursive "M")) := by
  refine ⟨?_, ⟨_, rfl, stemDesign_not_recursive _ rfl⟩, by decide +kernel⟩
  rw [Design.parse, stemText, Json.read?_ofList]
  decide +kernel

end ProbeAtlas
