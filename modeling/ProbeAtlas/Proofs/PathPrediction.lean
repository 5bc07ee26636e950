import Mathlib.Algebra.Order.BigOperators.Group.List
import Mathlib.Algebra.Order.Group.Nat
import ProbeAtlas.Proofs.Ascent
import ProbeAtlas.Proofs.DistinctNames
import ProbeAtlas.Proofs.FlatContents

/-!
# ProbeAtlas — a unique path predicts where flattening puts a cell

A unique path is found from below, by counting the cells of a module in the text of the whole design.
Flattening goes from the top down and copies every instance. Still the path tells what the flat top
holds: an ascent from a module passes the only way along which its cell can be reached. A second way
could only lead through the top again, and then there would be infinitely many.

Main results:

* `Design.Ascent.cell_unique` and `Design.Ascent.exists_cell` — the module at the foot of an ascent has
  one instance, if the contents of the modules between are known.
* `Design.uniquePath?_predicts` — so the path names the one cell that flattening leaves of the blackboxed
  instantiator.
-/

namespace ProbeAtlas

namespace Design

-- ---------------------------------------------------------------------------
-- Instances below instances
-- ---------------------------------------------------------------------------

section Reaches

variable {d : Design} {top m : Module} {p q : InstancePath}

/-- An instance of another module is that of a cell. -/
theorem Reaches.exists_cell (h : d.Reaches top p m) (hNe : m.name ≠ top.name) :
    ∃ x, d.HasCell top x ∧ x.path = p ∧ d.expandable? x.cell.type = some m := by
  cases h with
  | root => exact absurd rfl hNe
  | @child q above _ c i hAbove hCell hBelow => exact ⟨⟨q, c, i⟩, ⟨above, hAbove, hCell⟩, rfl, hBelow⟩

/-- **A hierarchy of finitely many cells does not contain its top again.** -/
theorem Enumerates.path_eq_nil {leaves : List Placement} {scopes : List (InstancePath × Module)}
    (h : d.Enumerates top leaves scopes) {x : Placement} (hx : x ∈ leaves)
    (hLoop : d.Reaches top q top) : q = [] := by
  by_contra hNe
  have hPos : 0 < q.length := List.length_pos_iff.mpr hNe
  -- going round once more leads to a cell that lies deeper
  have hDeep : ∀ n, ∃ y ∈ leaves, n ≤ y.scope.length := by
    intro n
    induction n with
    | zero => exact ⟨x, hx, Nat.zero_le _⟩
    | succ n ih =>
      obtain ⟨y, hy, hLength⟩ := ih
      obtain ⟨⟨m, hReaches, hCell⟩, hLeaf⟩ := (h.mem_leaves y).mp hy
      refine ⟨{ y with scope := q ++ y.scope }, ?_, ?_⟩
      · exact (h.mem_leaves _).mpr ⟨⟨m, hLoop.append hReaches, hCell⟩, hLeaf⟩
      · rw [List.length_append]
        omega
  obtain ⟨y, hy, hLength⟩ := hDeep ((leaves.map fun y => y.scope.length).sum + 1)
  have hBound := List.le_sum_of_mem (List.mem_map_of_mem (f := fun y : Placement => y.scope.length) hy)
  omega

end Reaches

theorem not_blackbox_of_expandable? {d : Design} {type : String} {m : Module}
    (h : d.expandable? type = some m) : m.blackbox = false := by
  simpa using (Option.filter_eq_some_iff.mp h).2

-- ---------------------------------------------------------------------------
-- The only cell of its type
-- ---------------------------------------------------------------------------

/-- Of at most one item that passes a test there is one position. -/
theorem getElem?_unique {α : Type} {p : α → Bool} {xs : List α} (h : (xs.filter p).length ≤ 1)
    {i j : Nat} {a b : α} (ha : xs[i]? = some a) (hpa : p a = true) (hb : xs[j]? = some b)
    (hpb : p b = true) : i = j := by
  induction xs generalizing i j with
  | nil => cases ha
  | cons x xs ih =>
    have hRest : ∀ {c : α}, p x = true → c ∈ xs → p c = true → False := by
      intro c hx hc hpc
      rw [List.filter_cons_of_pos hx, List.length_cons] at h
      have := List.length_pos_of_mem (List.mem_filter.mpr ⟨hc, hpc⟩)
      omega
    match i, j with
    | 0, 0 => rfl
    | 0, j + 1 =>
      cases ha
      exact (hRest hpa (List.mem_of_getElem? hb) hpb).elim
    | i + 1, 0 =>
      cases hb
      exact (hRest hpb (List.mem_of_getElem? ha) hpa).elim
    | i + 1, j + 1 =>
      have hLe := ((List.sublist_cons_self x xs).filter p).length_le
      rw [ih (Nat.le_trans hLe h) ha hb]

section Ascent

variable {d e : Design} {top : Module} {type : String} {u : Use} {us : List Use} {x y : Placement}

/-- The hierarchy of `e` is made of modules of `d`. -/
def Within (e d : Design) (top : Module) : Prop :=
  ∀ p m, e.Reaches top p m → m ∈ d.modules

/-- A cell of the hierarchy is where the only cell of its type is. -/
theorem HasCell.of_uses (hx : e.HasCell top x) (hWithin : e.Within d top)
    (hUses : d.uses x.cell.type = [u]) :
    e.Reaches top x.scope u.holder ∧ x.cell = u.cell ∧ u.holder.cells[x.position]? = some u.cell := by
  obtain ⟨m, hReaches, hCell⟩ := hx
  have hMem : (⟨m, x.cell⟩ : Use) ∈ d.uses x.cell.type :=
    mem_uses.mpr ⟨hWithin _ m hReaches, List.mem_of_getElem? hCell, rfl⟩
  rw [hUses, List.mem_singleton] at hMem
  cases hMem
  exact ⟨hReaches, rfl, hCell⟩

/-- The only cell of its type has one position in its module. -/
theorem position_unique (hUses : d.uses type = [u]) {i j : Nat}
    (hi : u.holder.cells[i]? = some u.cell) (hj : u.holder.cells[j]? = some u.cell) : i = j := by
  obtain ⟨hHolder, -, hType⟩ := mem_uses.mp (hUses ▸ List.mem_singleton_self u)
  have hSublist := List.sublist_flatten_of_mem (List.mem_map_of_mem (f := fun m : Module =>
    (m.cells.filter fun c => c.type == type).map fun c => (⟨m, c⟩ : Use)) hHolder)
  rw [← List.flatMap_def] at hSublist
  have hLength := hSublist.length_le
  change _ ≤ (d.uses type).length at hLength
  rw [hUses, List.length_map] at hLength
  exact getElem?_unique hLength hi (beq_iff_eq.mpr hType) hj (beq_iff_eq.mpr hType)

namespace Ascent

/-- A module of the top's name is the top, and it is at the root. -/
theorem scope_eq_nil {m : Module} {p : InstancePath} (hFind : e.find? top.name = some top)
    (hLoop : ∀ q, e.Reaches top q top → q = []) (h : e.Reaches top p m) (hName : m.name = top.name) :
    p = [] := by
  cases hReaches : h with
  | root => rfl
  | child _ _ hBelow =>
    have hFound := find?_of_expandable? hBelow
    rw [← name_of_find? hFound, hName, hFind] at hFound
    cases hFound
    exact hLoop _ h

/-- **There is at most one instance at the foot of an ascent.** By induction on the ascent: cells of one
type lie in the same module, and their scopes are instances of the cells above. -/
theorem cell_unique (h : d.Ascent top.name type us) (hWithin : e.Within d top)
    (hFind : e.find? top.name = some top) (hLoop : ∀ q, e.Reaches top q top → q = [])
    (hx : e.HasCell top x) (hxType : x.cell.type = type) (hy : e.HasCell top y)
    (hyType : y.cell.type = type) : x = y := by
  induction h generalizing x y with
  | @arrive type u hUses hTop =>
    obtain ⟨hxReaches, hxCell, hxPosition⟩ := hx.of_uses hWithin (hxType ▸ hUses)
    obtain ⟨hyReaches, hyCell, hyPosition⟩ := hy.of_uses hWithin (hyType ▸ hUses)
    have hxScope := scope_eq_nil hFind hLoop hxReaches hTop
    have hyScope := scope_eq_nil hFind hLoop hyReaches hTop
    refine Placement.path_injective ?_
    rw [Placement.path, Placement.path, hxScope, hyScope, hxCell, hyCell,
      position_unique hUses hxPosition hyPosition]
  | @climb type u us hUses hTop _ ih =>
    obtain ⟨hxReaches, hxCell, hxPosition⟩ := hx.of_uses hWithin (hxType ▸ hUses)
    obtain ⟨hyReaches, hyCell, hyPosition⟩ := hy.of_uses hWithin (hyType ▸ hUses)
    obtain ⟨x', hx', hxScope, hxBelow⟩ := hxReaches.exists_cell hTop
    obtain ⟨y', hy', hyScope, hyBelow⟩ := hyReaches.exists_cell hTop
    have hSame : x' = y' := ih hx' (name_of_find? (find?_of_expandable? hxBelow)).symm hy'
      (name_of_find? (find?_of_expandable? hyBelow)).symm
    refine Placement.path_injective ?_
    rw [Placement.path, Placement.path, ← hxScope, ← hyScope, hSame, hxCell, hyCell,
      position_unique hUses hxPosition hyPosition]

/-- The contents of the modules above an instance are known. -/
theorem not_blackbox (h : d.Ascent top.name type us) (hWithin : e.Within d top)
    (hx : e.HasCell top x) (hType : x.cell.type = type) (hu : u ∈ us.dropLast) :
    u.holder.blackbox = false := by
  induction h generalizing x with
  | arrive => cases hu
  | @climb type first us hUses hTop hRest ih =>
    obtain ⟨hReaches, -, -⟩ := hx.of_uses hWithin (hType ▸ hUses)
    obtain ⟨x', hx', -, hBelow⟩ := hReaches.exists_cell hTop
    rw [List.dropLast_cons_of_ne_nil hRest.ne_nil] at hu
    rcases List.mem_cons.mp hu with rfl | hu
    · exact not_blackbox_of_expandable? hBelow
    · exact ih hx' (name_of_find? (find?_of_expandable? hBelow)).symm hu

/-- **Where the contents of the modules between are known, there is an instance at the foot of an
ascent.** Its name is made of the cells that the ascent passes, from the last one down. -/
theorem exists_cell (h : d.Ascent top.name type us)
    (hTop : ∀ u ∈ us, u.holder.name = top.name → u.holder = top)
    (hKnown : ∀ u ∈ us.dropLast, e.expandable? u.holder.name = some u.holder) :
    ∃ x, e.HasCell top x ∧ x.cell.type = type ∧
      x.name = ".".intercalate (us.map fun u => u.cell.name).reverse := by
  induction h with
  | @arrive type u hUses hArrive =>
    obtain ⟨-, hCell, hType⟩ := mem_uses.mp (hUses ▸ List.mem_singleton_self u)
    rw [hTop u (List.mem_singleton_self u) hArrive] at hCell
    obtain ⟨i, hi⟩ := List.getElem?_of_mem hCell
    exact ⟨⟨[], u.cell, i⟩, ⟨top, .root, hi⟩, hType, rfl⟩
  | @climb type u us hUses _ hRest ih =>
    rw [List.dropLast_cons_of_ne_nil hRest.ne_nil] at hKnown
    obtain ⟨hFirst, hKnown⟩ := List.forall_mem_cons.mp hKnown
    obtain ⟨y, ⟨m, hReaches, hAbove⟩, hyType, hName⟩ :=
      ih (fun v hv => hTop v (List.mem_cons_of_mem _ hv)) hKnown
    obtain ⟨-, hCell, hType⟩ := mem_uses.mp (hUses ▸ List.mem_singleton_self u)
    obtain ⟨i, hi⟩ := List.getElem?_of_mem hCell
    rw [← hyType] at hFirst
    refine ⟨⟨y.path, u.cell, i⟩, ⟨u.holder, .child hReaches hAbove hFirst, hi⟩, hType, ?_⟩
    rw [Placement.name, Placement.nameBelow_path, hName, List.map_cons, List.reverse_cons,
      String.intercalate_append_of_ne_nil (by simpa using hRest.ne_nil) (by simp),
      String.intercalate_singleton]

end Ascent

end Ascent

-- ---------------------------------------------------------------------------
-- Blackboxing
-- ---------------------------------------------------------------------------

section Blackbox

variable {d boxed : Design} {name : String}

/-- What blackboxing does to the modules of a name. -/
theorem blackbox_eq_ok (h : d.blackbox name = .ok boxed) :
    ∃ f : Module → Module, boxed = d.update name f ∧ (∀ m, (f m).name = m.name) ∧
      (∀ m, (f m).blackbox = true) ∧ (d.find? name).isSome := by
  unfold blackbox at h
  split at h
  · cases h
  · next hFind =>
    cases h
    exact ⟨_, rfl, fun _ => rfl, fun _ => rfl, hFind ▸ rfl⟩

theorem find?_blackbox_of_ne (h : d.blackbox name = .ok boxed) {other : String} (hNe : other ≠ name) :
    boxed.find? other = d.find? other := by
  obtain ⟨f, rfl, hName, -, -⟩ := blackbox_eq_ok h
  rw [find?_update hName]
  cases hFind : d.find? other with
  | none => rfl
  | some m => rw [Option.map_some, if_neg (name_of_find? hFind ▸ hNe)]

/-- The contents of the blackboxed module are not known any more. -/
theorem expandable?_blackbox_self (h : d.blackbox name = .ok boxed) : boxed.expandable? name = none := by
  obtain ⟨f, rfl, hName, hBlackbox, hSome⟩ := blackbox_eq_ok h
  obtain ⟨m, hFind⟩ := Option.isSome_iff_exists.mp hSome
  rw [expandable?, find?_update hName, hFind, Option.map_some, if_pos (name_of_find? hFind),
    Option.filter_some, hBlackbox]
  rfl

theorem expandable?_blackbox_of_ne (h : d.blackbox name = .ok boxed) {other : String}
    (hNe : other ≠ name) : boxed.expandable? other = d.expandable? other := by
  rw [expandable?, expandable?, find?_blackbox_of_ne h hNe]

theorem topModule?_blackbox {top : Module} (h : d.blackbox name = .ok boxed)
    (hTop : d.topModule? = some top) (hNe : top.name ≠ name) : boxed.topModule? = some top := by
  obtain ⟨topName, hTopName, hFind⟩ := Option.bind_eq_some_iff.mp hTop
  have hSame : boxed.top = d.top := by
    obtain ⟨f, rfl, -⟩ := blackbox_eq_ok h
    rfl
  rw [topModule?, hSame, hTopName, Option.bind_some,
    find?_blackbox_of_ne h (name_of_find? hFind ▸ hNe), hFind]

/-- Only modules that blackboxing has left as they were are reached afterwards. -/
theorem within_blackbox {top : Module} (h : d.blackbox name = .ok boxed)
    (hTop : d.topModule? = some top) : boxed.Within d top := by
  intro p m hReaches
  cases hReaches with
  | root => exact List.mem_of_find?_eq_some (find?_top hTop)
  | @child _ _ _ c _ _ _ hBelow =>
    by_cases hType : c.type = name
    · rw [hType, expandable?_blackbox_self h] at hBelow
      cases hBelow
    · rw [expandable?_blackbox_of_ne h hType] at hBelow
      exact List.mem_of_find?_eq_some (find?_of_expandable? hBelow)

end Blackbox

-- ---------------------------------------------------------------------------
-- The prediction
-- ---------------------------------------------------------------------------

/-- The cells of one type in a flat top are the cells of that type that stay in the hierarchy. -/
theorem Flattened.names_of_type {d : Design} {top : Module} {leaves : List Placement}
    {scopes : List (InstancePath × Module)} {ledger : Ledger} {cells : List Cell}
    {netnames : List NetName} (h : Flattened d top leaves scopes ledger cells netnames) (type : String) :
    (cells.filter fun c => c.type == type).map Cell.name =
      (leaves.filter fun x => x.cell.type == type).map Placement.name := by
  have hOutlines := congrArg (fun outlines : List CellOutline =>
    (outlines.filter fun o => o.type == type).map CellOutline.name) h.outlines.1
  simp only [List.filter_map, List.map_map] at hOutlines
  exact hOutlines

/-- Above an ascent from the blackboxed module nothing is changed. -/
theorem Ascent.expandable?_boxed {d boxed : Design} {top name : String} {us : List Use}
    (h : d.Ascent top name us) (hNames : d.DistinctNames) (hBoxed : d.blackbox name = .ok boxed)
    (hOpen : ∀ u ∈ us.dropLast, u.holder.blackbox = false) :
    ∀ u ∈ us.dropLast, boxed.expandable? u.holder.name = some u.holder := by
  intro u hu
  have hMem := h.holder_mem (List.dropLast_subset us hu)
  rw [expandable?_blackbox_of_ne hBoxed (h.holder_ne hu), expandable?, hNames.find?_of_mem hMem,
    Option.filter_some, hOpen u hu]
  rfl

/-- **The cells that stay of a blackboxed module with an ascent.** -/
theorem Ascent.leaves_of_type {d boxed : Design} {top : Module} {name : String} {us : List Use}
    {leaves : List Placement} {scopes : List (InstancePath × Module)}
    (h : d.Ascent top.name name us) (hNames : d.DistinctNames) (hTop : d.topModule? = some top)
    (hNe : name ≠ top.name) (hBoxed : d.blackbox name = .ok boxed)
    (hLeaves : boxed.Enumerates top leaves scopes) :
    (leaves.filter fun x => x.cell.type == name).map Placement.name =
      if us.dropLast.any fun u => u.holder.blackbox then []
      else [".".intercalate (us.map fun u => u.cell.name).reverse] := by
  have hWithin := within_blackbox hBoxed hTop
  have hMem : ∀ x, x ∈ leaves.filter (fun x => x.cell.type == name) ↔
      boxed.HasCell top x ∧ x.cell.type = name := by
    intro x
    rw [List.mem_filter, hLeaves.mem_leaves, beq_iff_eq]
    constructor
    · rintro ⟨⟨hx, -⟩, hType⟩
      exact ⟨hx, hType⟩
    · rintro ⟨hx, hType⟩
      exact ⟨⟨hx, hType ▸ expandable?_blackbox_self hBoxed⟩, hType⟩
  split
  · next hSealed =>
    obtain ⟨u, hu, hBlackbox⟩ := List.any_eq_true.mp hSealed
    have hNone : leaves.filter (fun x => x.cell.type == name) = [] := by
      refine List.eq_nil_iff_forall_not_mem.mpr fun x hx => ?_
      obtain ⟨hCell, hType⟩ := (hMem x).mp hx
      rw [h.not_blackbox hWithin hCell hType hu] at hBlackbox
      cases hBlackbox
    rw [hNone, List.map_nil]
  · next hOpen =>
    have hOpen : ∀ u ∈ us.dropLast, u.holder.blackbox = false := by simpa using hOpen
    have hAtTop : ∀ u ∈ us, u.holder.name = top.name → u.holder = top := by
      intro u hu hName
      have hFind := hNames.find?_of_mem (h.holder_mem hu)
      rw [hName, find?_top hTop] at hFind
      exact (Option.some.inj hFind).symm
    obtain ⟨x, hx, hType, hName⟩ := h.exists_cell hAtTop (h.expandable?_boxed hNames hBoxed hOpen)
    have hxMem := (hMem x).mpr ⟨hx, hType⟩
    have hFind : boxed.find? top.name = some top := by
      rw [find?_blackbox_of_ne hBoxed (Ne.symm hNe), find?_top hTop]
    have hLoop : ∀ q, boxed.Reaches top q top → q = [] := fun q hq =>
      hLeaves.path_eq_nil (List.mem_filter.mp hxMem).1 hq
    have hOnly : ∀ y ∈ leaves.filter (fun x => x.cell.type == name), y = x := by
      intro y hy
      obtain ⟨hyCell, hyType⟩ := (hMem y).mp hy
      exact h.cell_unique hWithin hFind hLoop hyCell hyType hx hType
    have hOne : leaves.filter (fun x => x.cell.type == name) = [x] := by
      refine List.perm_singleton.mp ((List.perm_ext_iff_of_nodup (hLeaves.leaves_nodup.filter _)
        (List.nodup_singleton x)).mpr fun y => ?_)
      rw [List.mem_singleton]
      exact ⟨hOnly y, fun hEq => hEq ▸ hxMem⟩
    rw [hOne, List.map_singleton, hName]

/-- **A unique path predicts what flattening leaves of the instantiator.** The path is an ascent, which
does not end at once, so the instantiator is not the top. If the instantiator is blackboxed and the
design can then be flattened, the flat top has one cell of the instantiator, which is named after the
cells of the path from the top down, unless the path leads through another blackbox; then it has none.
All this is for designs whose modules have distinct names, and those that are read from a text have. -/
theorem uniquePath?_predicts :
    (∀ (choice : TopChoice) (text : String) (d : Design), Design.parse choice text = .ok d →
      d.DistinctNames) ∧
    ∀ (d : Design) (target : String) (path : UniquePath), d.DistinctNames →
      (d.uniquePath? target).value = some path →
      ∃ top us boxed, d.topModule? = some top ∧ d.Ascent top.name target us ∧
        us.head?.map (fun u => u.holder.name) = some path.instantiator ∧
        path.chain = us.map (fun u => u.cell.name) ∧ path.instantiator ≠ top.name ∧
        d.blackbox path.instantiator = .ok boxed ∧
        ∀ flat, boxed.flatten = (flat, none) → ∃ flatTop, flat.topModule? = some flatTop ∧
          (flatTop.cells.filter fun c => c.type == path.instantiator).map Cell.name =
            if us.tail.dropLast.any fun u => u.holder.blackbox then []
            else [".".intercalate path.chain.tail.reverse] := by
  refine ⟨fun choice text d h => parse_distinctNames h, ?_⟩
  intro d target path hNames hPath
  obtain ⟨top, u, v, us, hTop, hAscent, hInstantiator, hChain⟩ := uniquePath?_ascent hPath
  have hClimb : u.holder.name ≠ top.name ∧ d.Ascent top.name u.holder.name (v :: us) := by
    cases hAscent with
    | climb _ hNe hRest => exact ⟨hNe, hRest⟩
  obtain ⟨hNe, hRest⟩ := hClimb
  have hHolder := hNames.find?_of_mem (hAscent.holder_mem (List.mem_cons_self ..))
  rw [hInstantiator, hChain]
  have hBlackbox : ∃ boxed, d.blackbox u.holder.name = .ok boxed := by
    rw [blackbox, hHolder]
    exact ⟨_, rfl⟩
  obtain ⟨boxed, hBoxed⟩ := hBlackbox
  refine ⟨top, u :: v :: us, boxed, hTop, hAscent, rfl, rfl, hNe, hBoxed, fun flat hFlat => ?_⟩
  obtain ⟨top', leaves, scopes, ledger, cells, netnames, hTop', hFlattened, rfl⟩ :=
    flatten_elaborates hFlat
  rw [topModule?_blackbox hBoxed hTop (Ne.symm hNe)] at hTop'
  cases hTop'
  refine ⟨_, topModule?_withContents (topModule?_blackbox hBoxed hTop (Ne.symm hNe)), ?_⟩
  exact (hFlattened.names_of_type u.holder.name).trans
    (hRest.leaves_of_type hNames hTop hNe hBoxed hFlattened.enumerates)

end Design

/-! ## A path through two modules -/

/-- A subsystem two modules below the top, among modules with several cells and one with none. The module
between may be a blackbox. -/
def towerDesign (closed : Bool) : Design :=
  { modules :=
      [plain "top" [⟨"u", "middle", []⟩, ⟨"a", "pair", []⟩, ⟨"b", "pair", []⟩],
        { plain "middle" [⟨"w", "wrapper", []⟩, ⟨"p", "pair", []⟩] with blackbox := closed },
        plain "wrapper" [⟨"h", "hub", []⟩, ⟨"q", "pair", []⟩], plain "pair" [⟨"x", "BUF", []⟩],
        plain "spare" [⟨"s", "pair", []⟩], plain "hub" []]
    top := some "top"
    flattened := false }
where
  plain (name : String) (cells : List Cell) : Module :=
    { name, attributes := [], parameters := [], ports := [], cells, netnames := [], blackbox := false }

theorem towerDesign_flattens {closed : Bool} {boxed : Design}
    (h : (towerDesign closed).blackbox "wrapper" = .ok boxed) :
    boxed.flatten = (boxed.flatten.1, none) := by
  have hFaults : ∀ closed, ((towerDesign closed).blackbox "wrapper").toOption.map
      (fun boxed => boxed.flatten.2) = some none := by
    decide +kernel
  have hFault := hFaults closed
  rw [h] at hFault
  exact Prod.ext rfl (Option.some.inj hFault)

theorem towerDesign_path (closed : Bool) : ((towerDesign closed).uniquePath? "hub").value =
    some ⟨"wrapper", ["h", "w", "u"]⟩ := by
  revert closed
  decide +kernel

/-- The wrapper of the tower is left under the name of its path, or not at all if the tower is closed. -/
theorem towerDesign_predicts : ∃ names : Bool → List String,
    names false = ["u.w"] ∧ names true = [] ∧ ∀ closed, ∃ us boxed flatTop,
      (towerDesign closed).Ascent "top" "hub" us ∧ us.tail.dropLast.any (fun u => u.holder.blackbox) = closed ∧
      (towerDesign closed).blackbox "wrapper" = .ok boxed ∧ boxed.flatten = (boxed.flatten.1, none) ∧
      boxed.flatten.1.topModule? = some flatTop ∧
      (flatTop.cells.filter fun c => c.type == "wrapper").map Cell.name = names closed := by
  refine ⟨fun closed => if closed then [] else ["u.w"], rfl, rfl, fun closed => ?_⟩
  have hNames : (towerDesign closed).DistinctNames := by
    unfold Design.DistinctNames
    revert closed
    decide +kernel
  obtain ⟨top, us, boxed, hTop, hAscent, -, -, -, hBoxed, hPredicts⟩ :=
    Design.uniquePath?_predicts.2 _ _ _ hNames (towerDesign_path closed)
  obtain ⟨flatTop, hFlatTop, hCells⟩ := hPredicts _ (towerDesign_flattens hBoxed)
  have hName : top.name = "top" := by
    cases hTop
    rfl
  have hLeft : ∀ closed, (((towerDesign closed).blackbox "wrapper").toOption.bind fun boxed =>
      boxed.flatten.1.topModule?.map fun m =>
        (m.cells.filter fun c => c.type == "wrapper").map Cell.name) =
      some (if closed then [] else ["u.w"]) := by
    decide +kernel
  have hHere := hLeft closed
  rw [hBoxed] at hHere
  obtain ⟨m, hm, hHere⟩ := Option.map_eq_some_iff.mp hHere
  rw [hFlatTop] at hm
  cases hm
  refine ⟨us, boxed, flatTop, hName ▸ hAscent, ?_, hBoxed, towerDesign_flattens hBoxed, hFlatTop, hHere⟩
  rw [hHere] at hCells
  cases closed <;> cases hAny : us.tail.dropLast.any (fun u => u.holder.blackbox) <;>
    simp [hAny] at hCells ⊢

end ProbeAtlas
