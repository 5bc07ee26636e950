import ProbeAtlas.Proofs.Ascent
import ProbeAtlas.Proofs.DistinctNames
import ProbeAtlas.Proofs.FlatContents
import ProbeAtlas.Proofs.TableOrder

/-!
# ProbeAtlas — the order of modules is of no account

Modules are looked up by their names, and their cells are searched for types. Where every module has a
name of its own, a look-up does not depend on the order of the modules. A search finds the cells in the
order of the modules, but a path goes on only where it finds one cell. Parameters are neither looked up
nor searched here.

`Design.Reordered` relates designs that differ in these orders only.

Main results:

* `Design.Reordered.uniquePath?_value` — both designs have the same path to a module.
* `Design.SameBodies.flatten` — flattening ends with the same top, or in the same impasse.
-/

namespace ProbeAtlas

/-- The item of a list that has just one. -/
def sole? {α : Type} : List α → Option α
  | [x] => some x
  | _ => none

theorem sole?_perm {α : Type} {xs ys : List α} (h : xs.Perm ys) : sole? ys = sole? xs := by
  rcases xs with _ | ⟨x, _ | ⟨x', xs⟩⟩
  · rw [List.nil_perm.mp h]
  · rw [List.singleton_perm.mp h]
  · rcases ys with _ | ⟨y, _ | ⟨y', ys⟩⟩
    · rfl
    · cases h.length_eq
    · rfl

-- ---------------------------------------------------------------------------
-- Designs in another order
-- ---------------------------------------------------------------------------

/-- The modules differ only in the order of their parameters. -/
structure Module.Reordered (m m' : Module) : Prop where
  parameters : m.parameters.Perm m'.parameters
  body       : m'.body = m.body

/-- What does not look at the parameters is the same for modules with the same body. -/
theorem Module.congr_body {α : Type} {m m' : Module} (h : m'.body = m.body) (f : Module → α)
    (hf : ∀ m, f m.body = f m) : f m' = f m := by
  rw [← hf m', h, hf m]

/-- Two look-ups that agree but for parameters both find nothing, or modules with the same body. -/
theorem Module.found_cases {found found' : Option Module}
    (h : found'.map Module.body = found.map Module.body) : found = none ∧ found' = none ∨
      ∃ m m', found = some m ∧ found' = some m' ∧ m'.body = m.body := by
  cases found with
  | none => exact Or.inl ⟨rfl, Option.map_eq_none_iff.mp h⟩
  | some m =>
    obtain ⟨m', hFound', hBody⟩ := Option.map_eq_some_iff.mp h
    exact Or.inr ⟨m, m', rfl, hFound', hBody⟩

theorem Module.Reordered.symm {m m' : Module} (h : m.Reordered m') : m'.Reordered m :=
  ⟨h.parameters.symm, h.body.symm⟩

/-- The designs differ only in the order of their modules and in the order of each module's
parameters. -/
structure Design.Reordered (d d' : Design) : Prop where
  top       : d'.top = d.top
  flattened : d'.flattened = d.flattened
  modules   : ∃ ms, d.modules.Perm ms ∧ List.Forall₂ Module.Reordered ms d'.modules

namespace Design

variable {d d' : Design}

namespace Reordered

/-- What does not depend on the order of the parameters is there in both designs, in some order. -/
theorem perm_map {α : Type} (h : d.Reordered d') {f : Module → α}
    (hf : ∀ m m', m.Reordered m' → f m' = f m) : (d.modules.map f).Perm (d'.modules.map f) := by
  obtain ⟨ms, hPerm, hEach⟩ := h.modules
  have hSame : ms.map f = d'.modules.map f := by
    refine List.forall₂_eq_eq_eq ▸ ?_
    rw [List.forall₂_map_left_iff, List.forall₂_map_right_iff]
    exact hEach.imp fun m m' hm => (hf m m' hm).symm
  rw [← hSame]
  exact hPerm.map f

theorem perm_filterMap {α β : Type} (h : d.Reordered d') {f : Module → Option α} {g : α → β}
    (hf : ∀ m m', m.Reordered m' → (f m').map g = (f m).map g) :
    ((d.modules.filterMap f).map g).Perm ((d'.modules.filterMap f).map g) := by
  have hPerm := (h.perm_map hf).filterMap id
  rw [List.filterMap_map, List.filterMap_map] at hPerm
  rw [List.map_filterMap, List.map_filterMap]
  exact hPerm

theorem length_eq (h : d.Reordered d') : d'.modules.length = d.modules.length := by
  have hPerm := h.perm_map (f := fun _ => ()) fun _ _ _ => rfl
  simpa using hPerm.length_eq.symm

end Reordered

-- ---------------------------------------------------------------------------
-- Paths
-- ---------------------------------------------------------------------------

/-- The cells of a type by their names, each with the name of the module that holds it. -/
def sites (d : Design) (type : String) : List (String × String) :=
  (d.uses type).map fun u => (u.holder.name, u.cell.name)

theorem Reordered.sites_perm (h : d.Reordered d') (type : String) :
    (d.sites type).Perm (d'.sites type) := by
  have hSites : ∀ e : Design, e.sites type = (e.modules.map fun m =>
      (m.cells.filter fun c => c.type == type).map fun c => (m.name, c.name)).flatten := by
    intro e
    rw [sites, uses, List.map_flatMap, List.flatMap_def]
    simp only [List.map_map]
    rfl
  rw [hSites, hSites]
  refine (h.perm_map fun m m' hm => ?_).flatten
  have hName : m'.name = m.name := Module.congr_body hm.body Module.name fun _ => rfl
  have hCells : m'.cells = m.cells := Module.congr_body hm.body Module.cells fun _ => rfl
  rw [hName, hCells]

/-- A climb goes on from the only cell of a module, if there is just one. -/
theorem climb_value (top : String) (fuel : Nat) (target : String) (chain : List String)
    (first : String) : (d.climb top fuel target chain first).value =
      (sole? (d.sites target)).bind fun site =>
        let chain := chain ++ [site.2]
        let first := if chain.length = 1 then site.1 else first
        if site.1 = top then (arrive chain).value.map fun chain => ⟨first, chain⟩
        else
          match fuel with
          | 0 => none
          | fuel + 1 => (d.climb top fuel site.1 chain first).value := by
  rw [climb, sites]
  simp only [Logged.value_bind, postUses, Logged.value_pure]
  rcases d.uses target with _ | ⟨u, _ | ⟨u', us⟩⟩
  · rfl
  · show _ = (some (u.holder.name, u.cell.name)).bind _
    rw [Option.bind_some]
    dsimp only
    split
    · rfl
    · cases fuel <;> rfl
  · rfl

theorem Reordered.climb_value (h : d.Reordered d') (top : String) (fuel : Nat) (target : String)
    (chain : List String) (first : String) :
    (d'.climb top fuel target chain first).value = (d.climb top fuel target chain first).value := by
  induction fuel generalizing target chain first with
  | zero => rw [Design.climb_value, Design.climb_value, sole?_perm (h.sites_perm target)]
  | succ fuel ih =>
    rw [Design.climb_value, Design.climb_value, sole?_perm (h.sites_perm target)]
    simp only [ih]

-- ---------------------------------------------------------------------------
-- Look-ups
-- ---------------------------------------------------------------------------

/-- Both designs have the same module under every name, but for the parameters of the module. -/
structure SameBodies (d d' : Design) : Prop where
  top   : d'.top = d.top
  count : d'.modules.length = d.modules.length
  find? : ∀ name, (d'.find? name).map Module.body = (d.find? name).map Module.body

theorem Reordered.sameBodies (h : d.Reordered d') (hNames : d.DistinctNames) : d.SameBodies d' := by
  refine ⟨h.top, h.length_eq, fun name => ?_⟩
  have hFind : ∀ e : Design, (e.find? name).map Module.body =
      (e.modules.map Module.body).find? fun m => m.name == name := by
    intro e
    rw [List.find?_map]
    rfl
  have hNodup : ((d.modules.map Module.body).map Module.name).Nodup := by
    rw [List.map_map]
    exact hNames
  rw [hFind, hFind]
  exact find?_key_perm hNodup (h.perm_map fun m m' hm => hm.body) name

namespace SameBodies

variable (h : d.SameBodies d')

include h

theorem topModule? : d'.topModule?.map Module.body = d.topModule?.map Module.body := by
  unfold Design.topModule?
  rw [h.top, Option.map_bind, Option.map_bind]
  exact congrArg d.top.bind (funext h.find?)

theorem expandable? (type : String) :
    (d'.expandable? type).map Module.body = (d.expandable? type).map Module.body := by
  have hFilter : ∀ found : Option Module, (found.filter fun m => !m.blackbox).map Module.body =
      (found.map Module.body).filter fun m => !m.blackbox := by
    intro found
    rw [Option.filter_map]
    rfl
  unfold Design.expandable?
  rw [hFilter, hFilter, h.find?]

theorem inlinesAlike : d.InlinesAlike d' := by
  refine ⟨h.count, fun type => ?_⟩
  rcases Module.found_cases (h.expandable? type) with hNone | ⟨m, m', hFound, hFound', hBody⟩
  · exact Or.inl hNone
  · have hName : m'.name = m.name := Module.congr_body hBody Module.name fun _ => rfl
    exact Or.inr ⟨m, m', hFound, hFound', hName, fun cell counter =>
      Module.congr_body hBody (inlineCell cell · counter) fun _ => rfl⟩

/-- A change that does not touch the parameters can be made to both designs. -/
theorem update (name : String) (f : Module → Module) (hName : ∀ m, (f m).name = m.name)
    (hBody : ∀ m, (f m).body = f m.body) :
    (d.update name f).SameBodies (d'.update name f) := by
  have hChange : ∀ found : Option Module,
      (found.map fun m => if m.name = name then f m else m).map Module.body =
        (found.map Module.body).map fun m => if m.name = name then f m else m := by
    intro found
    cases found with
    | none => rfl
    | some m =>
      show some (if m.name = name then f m else m).body = some (if m.name = name then f m.body else m.body)
      split
      · rw [hBody]
      · rfl
  refine ⟨h.top, ?_, fun other => ?_⟩
  · show (d'.modules.map _).length = (d.modules.map _).length
    rw [List.length_map, List.length_map, h.count]
  · rw [find?_update hName, find?_update hName, hChange, hChange, h.find?]

/-- **Flattening ends with the same top, or in the same impasse.** -/
theorem flatten : d'.flatten.2 = d.flatten.2 ∧ d.flatten.1.SameBodies d'.flatten.1 := by
  unfold Design.flatten
  rcases Module.found_cases h.topModule? with ⟨hTop, hTop'⟩ | ⟨top, top', hTop, hTop', hBody⟩
  · rw [hTop, hTop']
    exact ⟨rfl, h⟩
  · have hName : top'.name = top.name := Module.congr_body hBody Module.name fun _ => rfl
    have hInitial : initialFlat top' = initialFlat top :=
      Module.congr_body hBody initialFlat fun _ => rfl
    have hPut : ∀ cells netnames, (d.update top.name fun m => { m with cells, netnames }).SameBodies
        (d'.update top.name fun m => { m with cells, netnames }) :=
      fun cells netnames => h.update top.name _ (fun _ => rfl) fun _ => rfl
    rw [hTop, hTop']
    dsimp only
    rw [hName, hInitial, h.count, h.inlinesAlike.flattenLevels]
    cases d.flattenLevels top.name (d.modules.length + 1) (initialFlat top) with
    | ok s =>
      have hFlat := hPut s.cells s.netnames.toList
      exact ⟨rfl, hFlat.top, hFlat.count, hFlat.find?⟩
    | error stuck => exact ⟨rfl, hPut _ _⟩

theorem blackbox (name : String) :
    (∃ fault, d.blackbox name = .error fault ∧ d'.blackbox name = .error fault) ∨
      ∃ boxed boxed', d.blackbox name = .ok boxed ∧ d'.blackbox name = .ok boxed' ∧
        boxed.SameBodies boxed' := by
  unfold Design.blackbox
  rcases Module.found_cases (h.find? name) with ⟨hFound, hFound'⟩ | ⟨m, m', hFound, hFound', -⟩
  · rw [hFound, hFound']
    exact Or.inl ⟨_, rfl, rfl⟩
  · rw [hFound, hFound']
    exact Or.inr ⟨_, _, rfl, rfl, h.update name _ (fun _ => rfl) fun _ => rfl⟩

end SameBodies

/-- **Both designs have the same path to a module, or none.** -/
theorem Reordered.uniquePath?_value (h : d.Reordered d') (hNames : d.DistinctNames)
    (target : String) : (d'.uniquePath? target).value = (d.uniquePath? target).value := by
  unfold uniquePath?
  rw [Logged.value_bind, Logged.value_bind, h.flattened]
  split
  · rfl
  · rcases Module.found_cases (h.sameBodies hNames).topModule? with
      ⟨hTop, hTop'⟩ | ⟨top, top', hTop, hTop', hBody⟩
    · rw [hTop, hTop']
    · have hName : top'.name = top.name := Module.congr_body hBody Module.name fun _ => rfl
      rw [hTop, hTop']
      dsimp only
      rw [Logged.value_bind, Logged.value_bind, hName, h.length_eq, h.climb_value]

end Design

end ProbeAtlas
