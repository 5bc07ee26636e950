import Mathlib.Data.Set.Function
import Mathlib.Logic.Equiv.Basic
import ProbeAtlas.Proofs.FlatContents

/-!
# ProbeAtlas — net numbers of a module are of no account

The net numbers of a module below the top serve only to tell its nets apart. Inlining looks them up among
the decisions made so far and never hands one on: a net becomes a bit outside or a fresh net, and fresh nets
are drawn from the counter of the top in the order in which nets are come upon. So if the nets of a module are
renumbered and stay apart, the same decisions are made at the same moments (`Renaming.Renumbered`), and what
takes the place of a cell is the same to the last bit.

Main results:

* `inlineCell_renumber` — a cell of a renumbered module is inlined as before.
* `Design.flatten_renumber` — flattening ends in the same way with the same top.
-/

namespace ProbeAtlas

-- ---------------------------------------------------------------------------
-- Other net numbers
-- ---------------------------------------------------------------------------

/-- The bit with another net number, if it is a net. -/
def Bit.renumber (f : Nat → Nat) : Bit → Bit
  | .net id => .net (f id)
  | .const level => .const level

def renumberAll (f : Nat → Nat) (bits : List Bit) : List Bit :=
  bits.map (Bit.renumber f)

def Port.renumber (f : Nat → Nat) (p : Port) : Port :=
  { p with bits := renumberAll f p.bits }

def NetName.renumber (f : Nat → Nat) (n : NetName) : NetName :=
  { n with bits := renumberAll f n.bits }

def Cell.renumber (f : Nat → Nat) (c : Cell) : Cell :=
  { c with connections := c.connections.map fun a => (a.1, renumberAll f a.2) }

namespace Module

/-- The module with other net numbers in its ports, net names and cells. -/
def renumber (f : Nat → Nat) (m : Module) : Module :=
  { m with
    ports := m.ports.map fun p => (p.1, p.2.renumber f)
    netnames := m.netnames.map (NetName.renumber f)
    cells := m.cells.map (Cell.renumber f) }

/-- The net occurs in the module. -/
def HasNet (m : Module) (id : Nat) : Prop :=
  (∃ p ∈ m.ports, .net id ∈ p.2.bits) ∨ (∃ n ∈ m.netnames, .net id ∈ n.bits) ∨
    ∃ c ∈ m.cells, ∃ a ∈ c.connections, .net id ∈ a.2

end Module

/-- The design with other net numbers in the modules of the given name. -/
def Design.renumber (d : Design) (name : String) (f : Nat → Nat) : Design :=
  d.update name (Module.renumber f)

-- ---------------------------------------------------------------------------
-- The same decisions
-- ---------------------------------------------------------------------------

namespace Renaming

/-- Decisions about nets, and the same decisions about the nets as they are numbered by `f`. -/
structure Renumbered (f : Nat → Nat) (nets : Set Nat) (r r' : Renaming) : Prop where
  known   : ∀ id ∈ nets, r'.known.lookup (f id) = r.known.lookup id
  counter : r'.counter = r.counter

namespace Renumbered

variable {f : Nat → Nat} {nets : Set Nat} {r r' : Renaming}

theorem isKnown (h : Renumbered f nets r r') {id : Nat} (hid : id ∈ nets) :
    r'.isKnown (f id) = r.isKnown id := by
  rw [Renaming.isKnown, Renaming.isKnown, h.known id hid]

theorem get? (h : Renumbered f nets r r') {id : Nat} (hid : id ∈ nets) : r'.get? (f id) = r.get? id := by
  rw [Renaming.get?, Renaming.get?, h.known id hid]

variable (hInj : Set.InjOn f nets)

include hInj

theorem set (h : Renumbered f nets r r') {id : Nat} (hid : id ∈ nets) (b : Option Bit) :
    Renumbered f nets (r.set id b) (r'.set (f id) b) := by
  refine ⟨fun n hn => ?_, h.counter⟩
  rw [lookup_set, lookup_set, h.known n hn, if_congr (hInj.eq_iff hn hid) rfl rfl]

theorem setFresh (h : Renumbered f nets r r') {id : Nat} (hid : id ∈ nets) :
    Renumbered f nets (r.setFresh id) (r'.setFresh (f id)) := by
  have hSet := h.set hInj hid (some (.net (nextNet r.counter)))
  rw [Renaming.setFresh, Renaming.setFresh, h.counter]
  exact ⟨hSet.known, rfl⟩

/-! ## Ports -/

theorem bindPort (h : Renumbered f nets r r') {inner : List Bit} (hInner : ∀ id, .net id ∈ inner → id ∈ nets)
    (outer : List (Option Bit)) :
    Renumbered f nets (r.bindPort inner outer) (r'.bindPort (renumberAll f inner) outer) := by
  induction inner generalizing r r' outer with
  | nil => exact h
  | cons b inner ih =>
    have hRest : ∀ id, .net id ∈ inner → id ∈ nets := fun id hMem => hInner id (List.mem_cons_of_mem _ hMem)
    cases b with
    | const level => exact ih h hRest outer.tail
    | net id =>
      have hid : id ∈ nets := hInner id (List.mem_cons_self ..)
      show Renumbered f nets (r.bindPort (.net id :: inner) outer)
        (r'.bindPort (.net (f id) :: renumberAll f inner) outer)
      rw [Renaming.bindPort.eq_def, Renaming.bindPort.eq_def (r := r')]
      dsimp only
      rw [h.isKnown hid]
      split
      · exact ih h hRest outer.tail
      · cases outer with
        | nil => exact ih (h.setFresh hInj hid) hRest []
        | cons b outer => exact ih (h.set hInj hid b) hRest outer

theorem bindPorts (h : Renumbered f nets r r') (connections : List (String × List Bit))
    {ports : List (String × Port)} (hPorts : ∀ p ∈ ports, ∀ id, .net id ∈ p.2.bits → id ∈ nets) :
    Renumbered f nets (r.bindPorts connections ports)
      (r'.bindPorts connections (ports.map fun p => (p.1, p.2.renumber f))) := by
  induction ports generalizing r r' with
  | nil => exact h
  | cons p ports ih =>
    obtain ⟨hFirst, hRest⟩ := List.forall_mem_cons.mp hPorts
    exact ih (h.bindPort hInj hFirst (outerBits connections p.1)) hRest

/-! ## Contents -/

omit hInj in
/-- What is shown for one thing holds for a list of them that is renamed from front to back: the same is made
of it, and the decisions stay the same. -/
theorem traverse {α β : Type} (step : Renaming → α → β × Renaming)
    (steps : Renaming → List α → List β × Renaming) (change : α → α)
    (hNil : ∀ r, steps r [] = ([], r))
    (hCons : ∀ r a as, steps r (a :: as) =
      ((step r a).1 :: (steps (step r a).2 as).1, (steps (step r a).2 as).2))
    {as : List α} (hStep : ∀ a ∈ as, ∀ r r', Renumbered f nets r r' →
      (step r' (change a)).1 = (step r a).1 ∧ Renumbered f nets (step r a).2 (step r' (change a)).2)
    (h : Renumbered f nets r r') :
    (steps r' (as.map change)).1 = (steps r as).1 ∧
      Renumbered f nets (steps r as).2 (steps r' (as.map change)).2 := by
  induction as generalizing r r' with
  | nil =>
    rw [List.map_nil, hNil, hNil]
    exact ⟨rfl, h⟩
  | cons a as ih =>
    obtain ⟨hFirst, hRest⟩ := List.forall_mem_cons.mp hStep
    obtain ⟨hSame, hNext⟩ := hFirst r r' h
    obtain ⟨hSames, hLast⟩ := ih hRest hNext
    rw [List.map_cons, hCons, hCons, hSame, hSames]
    exact ⟨rfl, hLast⟩

theorem bit (h : Renumbered f nets r r') {b : Bit} (hb : ∀ id, b = .net id → id ∈ nets) :
    (r'.bit (b.renumber f)).1 = (r.bit b).1 ∧ Renumbered f nets (r.bit b).2 (r'.bit (b.renumber f)).2 := by
  cases b with
  | const level => exact ⟨rfl, h⟩
  | net id =>
    have hid : id ∈ nets := hb id rfl
    have hGet : r'.get? (f id) = r.get? id := h.get? hid
    show (r'.bit (.net (f id))).1 = _ ∧ Renumbered f nets _ (r'.bit (.net (f id))).2
    rw [Renaming.bit, Renaming.bit, hGet]
    cases r.get? id with
    | some b => exact ⟨rfl, h⟩
    | none => exact ⟨by rw [h.counter], h.setFresh hInj hid⟩

theorem bits (h : Renumbered f nets r r') {bs : List Bit} (hbs : ∀ id, .net id ∈ bs → id ∈ nets) :
    (r'.bits (renumberAll f bs)).1 = (r.bits bs).1 ∧
      Renumbered f nets (r.bits bs).2 (r'.bits (renumberAll f bs)).2 :=
  traverse Renaming.bit Renaming.bits (Bit.renumber f) (fun _ => rfl) (fun _ _ _ => rfl)
    (fun _ hMem _ _ hr => hr.bit hInj fun id hid => hbs id (hid ▸ hMem)) h

theorem connections (h : Renumbered f nets r r') {as : List (String × List Bit)}
    (has : ∀ a ∈ as, ∀ id, .net id ∈ a.2 → id ∈ nets) :
    (r'.connections (as.map fun a => (a.1, renumberAll f a.2))).1 = (r.connections as).1 ∧
      Renumbered f nets (r.connections as).2
        (r'.connections (as.map fun a => (a.1, renumberAll f a.2))).2 := by
  refine traverse (fun r a => ((a.1, (r.bits a.2).1), (r.bits a.2).2)) Renaming.connections _
    (fun _ => rfl) (fun _ _ _ => rfl) (fun a ha r r' hr => ?_) h
  obtain ⟨hSame, hNext⟩ := hr.bits hInj (has a ha)
  exact ⟨congrArg (Prod.mk a.1) hSame, hNext⟩

theorem netnames (h : Renumbered f nets r r') (cell : String) {ns : List NetName}
    (hns : ∀ n ∈ ns, ∀ id, .net id ∈ n.bits → id ∈ nets) :
    (r'.netnames cell (ns.map (NetName.renumber f))).1 = (r.netnames cell ns).1 ∧
      Renumbered f nets (r.netnames cell ns).2 (r'.netnames cell (ns.map (NetName.renumber f))).2 := by
  refine traverse (fun r n => ({ n with name := cell ++ "." ++ n.name, bits := (r.bits n.bits).1 },
    (r.bits n.bits).2)) (fun r => r.netnames cell) _ (fun _ => rfl) (fun _ _ _ => rfl)
    (fun n hn r r' hr => ?_) h
  obtain ⟨hSame, hNext⟩ := hr.bits hInj (hns n hn)
  exact ⟨congrArg (fun bits => { n with name := cell ++ "." ++ n.name, bits }) hSame, hNext⟩

theorem cells (h : Renumbered f nets r r') (cell : String) {cs : List Cell}
    (hcs : ∀ c ∈ cs, ∀ a ∈ c.connections, ∀ id, .net id ∈ a.2 → id ∈ nets) :
    (r'.cells cell (cs.map (Cell.renumber f))).1 = (r.cells cell cs).1 ∧
      Renumbered f nets (r.cells cell cs).2 (r'.cells cell (cs.map (Cell.renumber f))).2 := by
  refine traverse (fun r c => (⟨cell ++ "." ++ c.name, c.type, (r.connections c.connections).1⟩,
    (r.connections c.connections).2)) (fun r => r.cells cell) _ (fun _ => rfl) (fun _ _ _ => rfl)
    (fun c hc r r' hr => ?_) h
  obtain ⟨hSame, hNext⟩ := hr.connections hInj (hcs c hc)
  exact ⟨congrArg (Cell.mk (cell ++ "." ++ c.name) c.type) hSame, hNext⟩

end Renumbered

end Renaming

/-- **A cell of a renumbered module is inlined as before.** -/
theorem inlineCell_renumber {f : Nat → Nat} {m : Module} (hInj : Set.InjOn f {id | m.HasNet id})
    (cell : Cell) (counter : Nat) : inlineCell cell (m.renumber f) counter = inlineCell cell m counter := by
  have hStart : Renaming.Renumbered f {id | m.HasNet id} ⟨[], counter⟩ ⟨[], counter⟩ := ⟨fun _ _ => rfl, rfl⟩
  have hPorts := hStart.bindPorts hInj cell.connections fun p hp id hid => Or.inl ⟨p, hp, hid⟩
  obtain ⟨hNames, hNext⟩ := hPorts.netnames hInj cell.name fun n hn id hid => Or.inr (Or.inl ⟨n, hn, hid⟩)
  obtain ⟨hCells, hLast⟩ := hNext.cells hInj cell.name
    fun c hc a ha id hid => Or.inr (Or.inr ⟨c, hc, a, ha, hid⟩)
  unfold inlineCell
  dsimp only [Module.renumber]
  rw [hNames, hCells, hLast.counter]

namespace Design

-- ---------------------------------------------------------------------------
-- Designs
-- ---------------------------------------------------------------------------

variable {d : Design} {name : String} {f : Nat → Nat}

theorem find?_renumber (d : Design) (name : String) (f : Nat → Nat) (other : String) :
    (d.renumber name f).find? other =
      (d.find? other).map fun m => if m.name = name then m.renumber f else m :=
  find?_update (f := Module.renumber f) (fun _ => rfl) other

theorem expandable?_renumber (d : Design) (name : String) (f : Nat → Nat) (type : String) :
    (d.renumber name f).expandable? type =
      (d.expandable? type).map fun m => if m.name = name then m.renumber f else m := by
  have hBlackbox : ∀ m : Module, (if m.name = name then m.renumber f else m).blackbox = m.blackbox := by
    intro m
    split <;> rfl
  unfold expandable?
  rw [find?_renumber, Option.filter_map]
  simp only [Function.comp_def, hBlackbox]

theorem inlinesAlike_renumber (hInj : ∀ m, d.find? name = some m → Set.InjOn f {id | m.HasNet id}) :
    d.InlinesAlike (d.renumber name f) := by
  refine ⟨List.length_map .., fun type => ?_⟩
  rw [expandable?_renumber]
  cases hFound : d.expandable? type with
  | none => exact Or.inl ⟨rfl, rfl⟩
  | some m =>
    refine Or.inr ⟨m, _, rfl, rfl, ?_, fun cell counter => ?_⟩
    · dsimp only
      split <;> rfl
    · dsimp only
      split
      · next hName =>
        have hFind := find?_of_expandable? hFound
        rw [← name_of_find? hFind, hName] at hFind
        exact inlineCell_renumber (hInj m hFind) cell counter
      · rfl

/-- The top is another module. -/
theorem topModule?_renumber (hTop : d.top ≠ some name) : (d.renumber name f).topModule? = d.topModule? := by
  unfold topModule?
  show d.top.bind (d.renumber name f).find? = d.top.bind d.find?
  cases hName : d.top with
  | none => rfl
  | some top =>
    rw [Option.bind_some, Option.bind_some, find?_renumber]
    cases hFind : d.find? top with
    | none => rfl
    | some m =>
      refine congrArg some (if_neg fun hSame => hTop ?_)
      rw [hName, ← name_of_find? hFind, hSame]

/-- Changes of modules with different names can be made in any order. -/
theorem update_comm {other : String} {g h : Module → Module} (hg : ∀ m, (g m).name = m.name)
    (hh : ∀ m, (h m).name = m.name) (hNe : other ≠ name) :
    (d.update name g).update other h = (d.update other h).update name g := by
  unfold update
  dsimp only
  rw [List.map_map, List.map_map]
  congr 1
  refine List.map_congr_left fun m _ => ?_
  simp only [Function.comp]
  by_cases hName : m.name = name
  · have hOther : m.name ≠ other := fun hEq => hNe (hEq.symm.trans hName)
    rw [if_pos hName, if_neg hOther, if_pos hName, hg, if_neg hOther]
  · rw [if_neg hName]
    split
    · rw [hh, if_neg hName]
    · rfl

theorem top_flatten (d : Design) : d.flatten.1.top = d.top := by
  unfold flatten
  split
  · rfl
  · dsimp only
    split <;> rfl

/-- Flattening and renumbering a module other than the top can be done in any order. -/
theorem flatten_renumber_eq (hTop : d.top ≠ some name)
    (hInj : ∀ m, d.find? name = some m → Set.InjOn f {id | m.HasNet id}) :
    (d.renumber name f).flatten = (d.flatten.1.renumber name f, d.flatten.2) := by
  unfold flatten
  rw [topModule?_renumber hTop]
  cases hModule : d.topModule? with
  | none => rfl
  | some top =>
    have hNe : top.name ≠ name := by
      obtain ⟨topName, hName, hFind⟩ := Option.bind_eq_some_iff.mp hModule
      rw [name_of_find? hFind]
      exact fun hSame => hTop (hSame ▸ hName)
    have hPut : ∀ cells netnames,
        (d.renumber name f).update top.name (fun m => { m with cells, netnames }) =
          (d.update top.name fun m => { m with cells, netnames }).renumber name f :=
      fun cells netnames => update_comm (fun _ => rfl) (fun _ => rfl) hNe
    have hAlike := inlinesAlike_renumber hInj
    dsimp only
    rw [hAlike.count, hAlike.flattenLevels]
    cases d.flattenLevels top.name (d.modules.length + 1) (initialFlat top) with
    | ok s =>
      dsimp only
      rw [hPut]
      rfl
    | error stuck =>
      dsimp only
      rw [hPut]

/-- **Flattening does not depend on the net numbers below the top.** If the nets of a module other than the top
are renumbered and different nets stay different, flattening finishes as before, or throws the same fault, or
goes on for ever, and leaves the same top, to the last net number. The other modules are left as they are. -/
theorem flatten_renumber (hTop : d.top ≠ some name)
    (hInj : ∀ m, d.find? name = some m → Set.InjOn f {id | m.HasNet id}) :
    (d.renumber name f).flatten.2 = d.flatten.2 ∧
      (d.renumber name f).flatten.1.topModule? = d.flatten.1.topModule? ∧
      (d.renumber name f).flatten.1 = d.flatten.1.renumber name f := by
  rw [flatten_renumber_eq hTop hInj]
  refine ⟨rfl, topModule?_renumber ?_, rfl⟩
  rw [top_flatten]
  exact hTop

end Design

/-- Two nets of the module with two instances change their numbers, and the flat top is the same. -/
theorem nestedDesign_renumbered :
    nestedDesign.top ≠ some "pair" ∧
      (∀ m, nestedDesign.find? "pair" = some m → Set.InjOn (Equiv.swap 2 4) {id | m.HasNet id}) ∧
      nestedDesign.renumber "pair" (Equiv.swap 2 4) ≠ nestedDesign ∧
      (nestedDesign.renumber "pair" (Equiv.swap 2 4)).flatten.2 = none ∧
      (nestedDesign.renumber "pair" (Equiv.swap 2 4)).flatten.1.topModule? =
        nestedDesign.flatten.1.topModule? := by
  have hTop : nestedDesign.top ≠ some "pair" := by decide
  have hInj : ∀ m, nestedDesign.find? "pair" = some m →
      Set.InjOn (Equiv.swap 2 4) {id | m.HasNet id} := fun _ _ => (Equiv.swap 2 4).injective.injOn
  obtain ⟨hFault, hSame, -⟩ := Design.flatten_renumber hTop hInj
  refine ⟨hTop, hInj, by decide +kernel, ?_, hSame⟩
  rw [hFault, nestedDesign_flattens]

end ProbeAtlas
