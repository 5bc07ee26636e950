import Mathlib.Data.List.Nodup
import Mathlib.Data.List.Perm.Subperm
import Mathlib.Order.Bounds.Basic
import ProbeAtlas.Netlist.Top
import ProbeAtlas.Proofs.Flattening

/-!
# ProbeAtlas — the deepest root

The depth of a module is a property of the graph of modules and cells: the length of a longest chain of cells
down from the module that expands no module twice. The graph may have cycles, and cells may instantiate what
the design does not define or does not show.

The search for the depth expands a module inside the search for the modules above it, and a bound on the
number of its steps keeps it from going round. The bound hides nothing: a chain that expands no module twice
has no more cells than the design has modules (`Design.Descends.length_le`), so a search that may go further
finds the same depth (`Design.depthBelow_of_le`).

Main results:

* `Design.isGreatest_depthBelow` — the search finds the longest of the chains that it may look at.
* `Design.deepestRoot?_exact` — the top that is chosen is the first of the deepest roots.
-/

namespace ProbeAtlas

namespace Design

-- ---------------------------------------------------------------------------
-- Chains
-- ---------------------------------------------------------------------------

/-- A chain of cells down from the module of the given name. Each cell is in the module that the cell before it
instantiates, so the contents of that module are known. -/
inductive Descent (d : Design) : String → List Cell → Prop
  | stop {name : String} : Descent d name []
  | step {name : String} {m : Module} {c : Cell} {cells : List Cell} : d.expandable? name = some m →
      c ∈ m.cells → Descent d c.type cells → Descent d name (c :: cells)

/-- The modules that a chain expands: all on its way but the one behind its last cell. -/
def expanded : String → List Cell → List String
  | _, [] => []
  | name, c :: cells => name :: expanded c.type cells

/-- The length of a longest chain down from a module that expands no module twice. -/
def IsDepth (d : Design) (name : String) (depth : Nat) : Prop :=
  IsGreatest {n | ∃ cells, d.Descent name cells ∧ (expanded name cells).Nodup ∧ cells.length = n} depth

/-- A chain that expands no module twice, and none of those in `above`. -/
structure Descends (d : Design) (above : List String) (name : String) (cells : List Cell) : Prop where
  descent : d.Descent name cells
  once    : (expanded name cells).Nodup
  avoids  : ∀ other ∈ expanded name cells, other ∉ above

variable {d : Design} {above : List String} {name : String} {c : Cell} {cells : List Cell}

theorem length_expanded (name : String) (cells : List Cell) : (expanded name cells).length = cells.length := by
  induction cells generalizing name with
  | nil => rfl
  | cons c cells ih => rw [expanded, List.length_cons, ih, List.length_cons]

theorem descends_nil : d.Descends above name [] :=
  ⟨.stop, List.nodup_nil, fun _ h => absurd h List.not_mem_nil⟩

/-- A chain goes on below a module that it may still expand, and never expands it again. -/
theorem descends_cons : d.Descends above name (c :: cells) ↔
    (∃ m, d.expandable? name = some m ∧ c ∈ m.cells) ∧ name ∉ above ∧
      d.Descends (name :: above) c.type cells := by
  constructor
  · rintro ⟨hDescent, hOnce, hAvoids⟩
    cases hDescent with
    | step hm hc hRest =>
      obtain ⟨hNew, hOnce⟩ := List.nodup_cons.mp hOnce
      obtain ⟨hHere, hAvoids⟩ := List.forall_mem_cons.mp hAvoids
      refine ⟨⟨_, hm, hc⟩, hHere, hRest, hOnce, fun other hOther hMem => ?_⟩
      rcases List.mem_cons.mp hMem with rfl | hMem
      · exact hNew hOther
      · exact hAvoids other hOther hMem
  · rintro ⟨⟨m, hm, hc⟩, hHere, hDescent, hOnce, hAvoids⟩
    refine ⟨.step hm hc hDescent, List.nodup_cons.mpr ⟨fun hMem => ?_, hOnce⟩,
      List.forall_mem_cons.mpr ⟨hHere, fun other hOther hMem => ?_⟩⟩
    · exact hAvoids name hMem (List.mem_cons_self ..)
    · exact hAvoids other hOther (List.mem_cons_of_mem _ hMem)

/-- Only modules of the design are expanded. -/
theorem Descent.expanded_subset (h : d.Descent name cells) :
    expanded name cells ⊆ d.modules.map Module.name := by
  induction h with
  | stop => exact List.nil_subset _
  | step hm _ _ ih =>
    have hFind := find?_of_expandable? hm
    refine List.cons_subset.mpr ⟨?_, ih⟩
    exact List.mem_map.mpr ⟨_, List.mem_of_find?_eq_some hFind, name_of_find? hFind⟩

/-- **A chain that expands no module twice has no more cells than the design has modules.** -/
theorem Descends.length_le (h : d.Descends above name cells) : cells.length ≤ d.modules.length := by
  have hBound := (List.subperm_of_subset h.once h.descent.expanded_subset).length_le
  rwa [length_expanded, List.length_map] at hBound

-- ---------------------------------------------------------------------------
-- The search for the depth
-- ---------------------------------------------------------------------------

/-- The search goes on only below a module that may still be expanded. -/
theorem depthBelow_succ_of_blocked {fuel : Nat} (h : d.expandable? name = none ∨ name ∈ above) :
    d.depthBelow (fuel + 1) above name = 0 := by
  rw [depthBelow]
  split
  · rfl
  · next m hm =>
    rcases h with hNone | hAbove
    · cases hNone.symm.trans hm
    · exact if_pos hAbove

theorem depthBelow_succ_of_open {fuel : Nat} {m : Module} (hm : d.expandable? name = some m)
    (hHere : name ∉ above) : d.depthBelow (fuel + 1) above name =
      (m.cells.map fun c => d.depthBelow fuel (name :: above) c.type + 1).foldl max 0 := by
  rw [depthBelow, hm]
  exact if_neg hHere

/-- The running maximum of some numbers is the greatest of them, or zero if there are none. -/
theorem isGreatest_foldl_max (ns : List Nat) : IsGreatest {n | n = 0 ∨ n ∈ ns} (ns.foldl max 0) := by
  rw [List.foldl_max]
  cases hMax : ns.max? with
  | none =>
    rw [List.max?_eq_none_iff.mp hMax]
    exact ⟨Or.inl rfl, fun n hn => Nat.le_of_eq (hn.resolve_right List.not_mem_nil)⟩
  | some greatest =>
    obtain ⟨hMem, hUpper⟩ := List.max?_eq_some_iff.mp hMax
    rw [Option.getD_some, Nat.zero_max]
    refine ⟨Or.inr hMem, ?_⟩
    rintro n (rfl | hn)
    · exact Nat.zero_le greatest
    · exact hUpper n hn

/-- **The search finds the longest chain among those of at most as many cells as it may take steps.** By
induction on the steps: below an expanded module it looks at the chains that do not come back to it. -/
theorem isGreatest_depthBelow (d : Design) (fuel : Nat) (above : List String) (name : String) :
    IsGreatest {n | ∃ cells, d.Descends above name cells ∧ cells.length = n ∧ n ≤ fuel}
      (d.depthBelow fuel above name) := by
  have hEmpty : ∀ fuel above name,
      0 ∈ {n | ∃ cells, d.Descends above name cells ∧ cells.length = n ∧ n ≤ fuel} :=
    fun fuel _ _ => ⟨[], descends_nil, rfl, Nat.zero_le fuel⟩
  induction fuel generalizing above name with
  | zero => exact ⟨hEmpty 0 above name, fun n ⟨_, _, _, hn⟩ => hn⟩
  | succ fuel ih =>
    by_cases hBlocked : d.expandable? name = none ∨ name ∈ above
    · rw [depthBelow_succ_of_blocked hBlocked]
      refine ⟨hEmpty _ above name, ?_⟩
      rintro n ⟨cells, hChain, rfl, -⟩
      cases cells with
      | nil => exact Nat.le_refl 0
      | cons c cells =>
        obtain ⟨⟨m, hm, -⟩, hHere, -⟩ := descends_cons.mp hChain
        rcases hBlocked with hNone | hAbove
        · cases hNone.symm.trans hm
        · exact absurd hAbove hHere
    · push Not at hBlocked
      obtain ⟨hSome, hHere⟩ := hBlocked
      obtain ⟨m, hm⟩ := Option.ne_none_iff_exists'.mp hSome
      rw [depthBelow_succ_of_open hm hHere]
      obtain ⟨hAttained, hAll⟩ :=
        isGreatest_foldl_max (m.cells.map fun c => d.depthBelow fuel (name :: above) c.type + 1)
      constructor
      · rcases hAttained with hZero | hMem
        · rw [hZero]
          exact hEmpty _ above name
        · obtain ⟨c, hc, hDepth⟩ := List.mem_map.mp hMem
          obtain ⟨cells, hChain, hLength, hFuel⟩ := (ih (name :: above) c.type).1
          rw [← hDepth]
          refine ⟨c :: cells, descends_cons.mpr ⟨⟨m, hm, hc⟩, hHere, hChain⟩, ?_, Nat.succ_le_succ hFuel⟩
          rw [List.length_cons, hLength]
      · rintro n ⟨cells, hChain, rfl, hFuel⟩
        cases cells with
        | nil => exact Nat.zero_le _
        | cons c cells =>
          obtain ⟨⟨m', hm', hc⟩, -, hRest⟩ := descends_cons.mp hChain
          cases hm.symm.trans hm'
          have hBelow : cells.length ≤ d.depthBelow fuel (name :: above) c.type :=
            (ih (name :: above) c.type).2 ⟨cells, hRest, rfl, Nat.le_of_succ_le_succ hFuel⟩
          exact Nat.le_trans (Nat.succ_le_succ hBelow) (hAll (Or.inr (List.mem_map_of_mem hc)))

/-- With a step for every module, all chains are looked at. -/
theorem isGreatest_depthBelow_of_le {fuel : Nat} (hFuel : d.modules.length ≤ fuel) :
    IsGreatest {n | ∃ cells, d.Descends above name cells ∧ cells.length = n}
      (d.depthBelow fuel above name) := by
  obtain ⟨⟨cells, hChain, hLength, -⟩, hUpper⟩ := d.isGreatest_depthBelow fuel above name
  refine ⟨⟨cells, hChain, hLength⟩, ?_⟩
  rintro n ⟨cells, hChain, rfl⟩
  exact hUpper ⟨cells, hChain, rfl, Nat.le_trans hChain.length_le hFuel⟩

/-- **The bound on the steps is of no account.** -/
theorem depthBelow_of_le {fuel : Nat} (hFuel : d.modules.length ≤ fuel) :
    d.depthBelow fuel above name = d.depthBelow d.modules.length above name :=
  (isGreatest_depthBelow_of_le hFuel).unique (isGreatest_depthBelow_of_le (Nat.le_refl _))

/-- **The depth that is found is the depth.** -/
theorem isDepth_depth (d : Design) (name : String) : d.IsDepth name (d.depth name) := by
  have hGreatest : IsGreatest {n | ∃ cells, d.Descends [] name cells ∧ cells.length = n} (d.depth name) :=
    isGreatest_depthBelow_of_le (Nat.le_refl _)
  obtain ⟨⟨cells, hChain, hLength⟩, hUpper⟩ := hGreatest
  refine ⟨⟨cells, hChain.descent, hChain.once, hLength⟩, ?_⟩
  rintro n ⟨cells, hDescent, hOnce, rfl⟩
  exact hUpper ⟨cells, ⟨hDescent, hOnce, fun _ _ => List.not_mem_nil⟩, rfl⟩

-- ---------------------------------------------------------------------------
-- The choice among the roots
-- ---------------------------------------------------------------------------

/-- The contents of the module are known, and no cell of the design instantiates it. -/
structure IsRoot (d : Design) (m : Module) : Prop where
  known  : m.blackbox = false
  unused : ∀ holder ∈ d.modules, ∀ c ∈ holder.cells, c.type ≠ m.name

theorem isRoot_iff {m : Module} : (!d.isInstantiated m.name && !m.blackbox) = true ↔ d.IsRoot m := by
  rw [Bool.and_eq_true, Bool.not_eq_true', Bool.not_eq_true', isInstantiated, List.any_eq_false]
  simp only [List.any_eq_true, beq_iff_eq, not_exists, not_and]
  exact ⟨fun h => ⟨h.2, h.1⟩, fun h => ⟨h.unused, h.known⟩⟩

theorem mem_roots {m : Module} : m ∈ d.roots ↔ m ∈ d.modules ∧ d.IsRoot m := by
  rw [roots, List.mem_filter, isRoot_iff]

theorem deepest?_eq_none {entries : List (String × Nat)} : deepest? entries = none ↔ entries = [] := by
  cases entries with
  | nil => exact iff_of_true rfl rfl
  | cons first rest =>
    refine iff_of_false ?_ (List.cons_ne_nil first rest)
    rw [deepest?]
    split
    · exact Option.some_ne_none _
    · split <;> exact Option.some_ne_none _

/-- What is chosen is the first of the deepest entries. -/
theorem exists_split_of_deepest? {entries : List (String × Nat)} {e : String × Nat}
    (h : deepest? entries = some e) : ∃ before after, entries = before ++ e :: after ∧
      (∀ x ∈ entries, x.2 ≤ e.2) ∧ ∀ x ∈ before, x.2 < e.2 := by
  induction entries generalizing e with
  | nil => cases h
  | cons first rest ih =>
    rw [deepest?] at h
    split at h
    · next hNone =>
      cases h
      rw [deepest?_eq_none.mp hNone]
      exact ⟨[], [], rfl, by simp, by simp⟩
    · next best hBest =>
      obtain ⟨before, after, hSplit, hAll, hBefore⟩ := ih hBest
      split at h
      · next hDeeper =>
        cases h
        refine ⟨first :: before, after, by rw [hSplit, List.cons_append], ?_, ?_⟩
        · exact List.forall_mem_cons.mpr ⟨Nat.le_of_lt hDeeper, hAll⟩
        · exact List.forall_mem_cons.mpr ⟨hDeeper, hBefore⟩
      · next hDeeper =>
        cases h
        refine ⟨[], rest, rfl, List.forall_mem_cons.mpr ⟨Nat.le_refl _, fun x hx => ?_⟩, by simp⟩
        exact Nat.le_trans (hAll x hx) (Nat.le_of_not_lt hDeeper)

theorem deepest?_of_split {before after : List (String × Nat)} {e : String × Nat}
    (hBefore : ∀ x ∈ before, x.2 < e.2) (hAfter : ∀ x ∈ after, x.2 ≤ e.2) :
    deepest? (before ++ e :: after) = some e := by
  induction before with
  | nil =>
    rw [List.nil_append, deepest?]
    split
    · rfl
    · next best hBest =>
      obtain ⟨_, _, rfl, -, -⟩ := exists_split_of_deepest? hBest
      exact if_neg (Nat.not_lt.mpr (hAfter best (by simp)))
  | cons first before ih =>
    obtain ⟨hFirst, hBefore⟩ := List.forall_mem_cons.mp hBefore
    rw [List.cons_append, deepest?, ih hBefore]
    exact if_pos hFirst

/-- A root such that no root is deeper. -/
structure IsDeepestRoot (d : Design) (m : Module) : Prop where
  root    : d.IsRoot m
  deepest : ∀ r ∈ d.modules, d.IsRoot r → d.depth r.name ≤ d.depth m.name

/-- Before the first of the deepest roots all roots are less deep. -/
theorem IsDeepestRoot.depth_lt {m r : Module} (h : d.IsDeepestRoot m) (hr : d.IsRoot r)
    (hNot : ¬d.IsDeepestRoot r) : d.depth r.name < d.depth m.name := by
  by_contra hLe
  exact hNot ⟨hr, fun other hOther hRoot =>
    Nat.le_trans (h.deepest other hOther hRoot) (Nat.le_of_not_lt hLe)⟩

theorem deepestRoot?_eq_none : d.deepestRoot? = none ↔ ∀ m ∈ d.modules, ¬d.IsRoot m := by
  rw [deepestRoot?, Option.map_eq_none_iff, deepest?_eq_none, List.map_eq_nil_iff,
    List.eq_nil_iff_forall_not_mem]
  simp only [mem_roots, not_and]

/-- **The first of the deepest roots is chosen.** -/
theorem deepestRoot?_eq_some : d.deepestRoot? = some name ↔ ∃ before m after,
    d.modules = before ++ m :: after ∧ m.name = name ∧ d.IsDeepestRoot m ∧
      ∀ r ∈ before, ¬d.IsDeepestRoot r := by
  rw [deepestRoot?, Option.map_eq_some_iff]
  constructor
  · rintro ⟨e, hDeepest, rfl⟩
    obtain ⟨_, _, hSplit, hAll, hBefore⟩ := exists_split_of_deepest? hDeepest
    -- the split of the entries is one of the roots, and so one of the modules
    obtain ⟨shallow, _, hRoots, rfl, hRest⟩ := List.map_eq_append_iff.mp hSplit
    obtain ⟨m, others, rfl, rfl, rfl⟩ := List.map_eq_cons_iff.mp hRest
    obtain ⟨front, back, hModules, rfl, hBack⟩ := List.filter_eq_append_iff.mp hRoots
    obtain ⟨skipped, behind, rfl, hSkipped, hRoot, rfl⟩ := List.filter_eq_cons_iff.mp hBack
    rw [List.forall_mem_map] at hAll hBefore
    refine ⟨front ++ skipped, m, behind, by rw [hModules, List.append_assoc], rfl, ⟨isRoot_iff.mp hRoot, ?_⟩, ?_⟩
    · exact fun r hr hrRoot => hAll r (mem_roots.mpr ⟨hr, hrRoot⟩)
    · rintro r hr ⟨hrRoot, hrDeepest⟩
      rcases List.mem_append.mp hr with hr | hr
      · have hLess := hBefore r (List.mem_filter.mpr ⟨hr, isRoot_iff.mpr hrRoot⟩)
        have hMore := hrDeepest m (by simp [hModules]) (isRoot_iff.mp hRoot)
        exact Nat.not_lt.mpr hMore hLess
      · exact hSkipped r hr (isRoot_iff.mpr hrRoot)
  · rintro ⟨before, m, after, hModules, rfl, hm, hBefore⟩
    have hRoots : d.roots = (before.filter fun r => !d.isInstantiated r.name && !r.blackbox) ++
        m :: after.filter fun r => !d.isInstantiated r.name && !r.blackbox := by
      rw [roots, hModules, List.filter_append, List.filter_cons, if_pos (isRoot_iff.mpr hm.root)]
    refine ⟨(m.name, d.depth m.name), ?_, rfl⟩
    rw [hRoots, List.map_append, List.map_cons]
    refine deepest?_of_split (List.forall_mem_map.mpr fun r hr => ?_) (List.forall_mem_map.mpr fun r hr => ?_)
    · obtain ⟨hr, hRoot⟩ := List.mem_filter.mp hr
      exact hm.depth_lt (isRoot_iff.mp hRoot) (hBefore r hr)
    · obtain ⟨hr, hRoot⟩ := List.mem_filter.mp hr
      exact hm.deepest r (by simp [hModules, hr]) (isRoot_iff.mp hRoot)

/-- **The choice of a top is exact and ends.** The depth is that of the longest chain that expands no module
twice, and a search that may go further finds the same. The top is the first of the deepest roots in the
order of the modules, and there is none iff there is no root. -/
theorem deepestRoot?_exact (d : Design) :
    (∀ name, d.IsDepth name (d.depth name)) ∧
    (∀ fuel above name, d.modules.length ≤ fuel →
      d.depthBelow fuel above name = d.depthBelow d.modules.length above name) ∧
    (∀ name, d.deepestRoot? = some name ↔ ∃ before m after, d.modules = before ++ m :: after ∧
      m.name = name ∧ d.IsDeepestRoot m ∧ ∀ r ∈ before, ¬d.IsDeepestRoot r) ∧
    (d.deepestRoot? = none ↔ ∀ m ∈ d.modules, ¬d.IsRoot m) :=
  ⟨d.isDepth_depth, fun _ _ _ => depthBelow_of_le, fun _ => deepestRoot?_eq_some, deepestRoot?_eq_none⟩

end Design

end ProbeAtlas
