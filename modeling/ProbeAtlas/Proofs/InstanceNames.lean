import Mathlib.Data.List.Infix
import Mathlib.Data.List.Nodup
import ProbeAtlas.Proofs.DistinctNames
import ProbeAtlas.Proofs.FlatContents

/-!
# ProbeAtlas — names in a flat top

Flattening names a cell or a net by the cells on the way to it, joined with dots. Names in a module may
have dots of their own, so the way cannot always be read off the name: beside an instance `u` of a module
with a cell `x` there may be a cell `u.x`, and both are called `u.x` in the flat top.

Such a pair can only arise in a module where the name of a cell or a net begins like the name of
something inside an instance (`Design.LooksBelow`). Where no name does, a name from the top leads to one
object only (`Design.nameBelow_inj`).

Main results:

* `Design.parse_distinctParts` — the cells of a module that was read have distinct names, and so do its
  nets.
* `Design.flatten_names` — the names in the flat top are distinct exactly if no two ways read the same,
  and no two do if no name looks like one from below.
* `siblingText_clash` — otherwise they may.
-/

namespace ProbeAtlas

-- ---------------------------------------------------------------------------
-- Names within a module
-- ---------------------------------------------------------------------------

/-- The cells of a module have distinct names, and so have its nets. -/
structure Module.DistinctParts (m : Module) : Prop where
  cells : (m.cells.map Cell.name).Nodup
  nets  : (m.netnames.map NetName.name).Nodup

namespace NetlistFormat

theorem keyed_of_mem_recordOf {v : Value} (h : v.Keyed) {field : String} {e : String × Value}
    (he : e ∈ recordOf v field) : e.2.Keyed := by
  have hMem := (List.mem_filter.mp he).1
  cases hPart : v.field? field with
  | none =>
    rw [hPart] at hMem
    cases hMem
  | some part =>
    rw [hPart] at hMem
    obtain ⟨entry, hFind, rfl⟩ := Option.map_eq_some_iff.mp hPart
    exact (h.of_mem_entries (List.mem_of_find?_eq_some hFind)).of_mem_entries hMem

theorem distinctParts_moduleOf {v : Value} (h : v.Keyed) (name : String) :
    (moduleOf name v).DistinctParts := by
  have hCells : (moduleOf name v).cells.map Cell.name = (recordOf v "cells").map Prod.fst := by
    simp [moduleOf, cellOf]
  have hNets : (moduleOf name v).netnames.map NetName.name = (recordOf v "netnames").map Prod.fst := by
    simp [moduleOf, netnameOf]
  exact ⟨hCells ▸ nodup_recordOf h "cells", hNets ▸ nodup_recordOf h "netnames"⟩

end NetlistFormat

namespace Design

/-- **The cells of a module that was read have distinct names, and so do its nets.** -/
theorem parse_distinctParts {choice : TopChoice} {text : String} {d : Design}
    (h : Design.parse choice text = .ok d) : ∀ m ∈ d.modules, m.DistinctParts := by
  unfold parse at h
  split at h
  · cases h
  · next v hRead =>
    unfold ofValue at h
    split at h
    · cases h
    · cases h
      intro m hm
      obtain ⟨e, he, rfl⟩ := List.mem_map.mp hm
      have hKeyed := NetlistFormat.keyed_of_mem_recordOf (Json.read?_keyed hRead) he
      exact NetlistFormat.distinctParts_moduleOf hKeyed e.1

-- ---------------------------------------------------------------------------
-- Ways, from the top down
-- ---------------------------------------------------------------------------

section Reaches

variable {d : Design} {top m m' : Module} {p q : InstancePath}

/-- A way leads nowhere, or through a cell of the top to the module of that cell and on from there. -/
theorem Reaches.uncons (h : d.Reaches top p m) :
    (p = [] ∧ m = top) ∨ ∃ step q below, p = step :: q ∧ top.cells[step.2]? = some step.1 ∧
      d.expandable? step.1.type = some below ∧ d.Reaches below q m := by
  induction h with
  | root => exact Or.inl ⟨rfl, rfl⟩
  | @child p m below c i _ hCell hBelow ih =>
    right
    rcases ih with ⟨rfl, rfl⟩ | ⟨step, q, first, rfl, hStep, hFirst, hRest⟩
    · exact ⟨(c, i), [], below, rfl, hCell, hBelow, .root⟩
    · exact ⟨step, q ++ [(c, i)], first, rfl, hStep, hFirst, .child hRest hCell hBelow⟩

/-- A way leads to one module. -/
theorem Reaches.unique (h : d.Reaches top p m) (h' : d.Reaches top p m') : m = m' := by
  induction p generalizing top with
  | nil =>
    rcases h.uncons with ⟨-, rfl⟩ | ⟨_, _, _, hp, -⟩
    · rcases h'.uncons with ⟨-, rfl⟩ | ⟨_, _, _, hp, -⟩
      · rfl
      · cases hp
    · cases hp
  | cons step p ih =>
    rcases h.uncons with ⟨hp, -⟩ | ⟨_, _, below, hp, -, hBelow, hRest⟩
    · cases hp
    · rcases h'.uncons with ⟨hp', -⟩ | ⟨_, _, below', hp', -, hBelow', hRest'⟩
      · cases hp'
      · cases hp
        cases hp'
        rw [hBelow] at hBelow'
        cases hBelow'
        exact ih hRest hRest'

end Reaches

-- ---------------------------------------------------------------------------
-- Names that lead to one object
-- ---------------------------------------------------------------------------

/-- The name begins like the names of what is inside an instance in the module: with the name of the
instance and a dot. -/
def LooksBelow (d : Design) (m : Module) (name : String) : Prop :=
  ∃ c ∈ m.cells, (d.expandable? c.type).isSome = true ∧ (c.name ++ ".").toList <+: name.toList

instance (d : Design) (m : Module) (name : String) : Decidable (d.LooksBelow m name) :=
  inferInstanceAs (Decidable (∃ c ∈ m.cells, _ ∧ _))

/-- A text can be cut at a separator in different ways only if the longer front goes on with the
separator behind the shorter one. -/
theorem eq_or_prefix_of_append_eq {α : Type} {xs ys us vs : List α} {a : α}
    (h : xs ++ a :: us = ys ++ a :: vs) : xs = ys ∨ xs ++ [a] <+: ys ∨ ys ++ [a] <+: xs := by
  rcases List.append_eq_append_iff.mp h with ⟨rest, rfl, hRest⟩ | ⟨rest, rfl, hRest⟩
  · cases rest with
    | nil => exact Or.inl (List.append_nil _).symm
    | cons b rest =>
      cases (List.cons.inj hRest).1
      exact Or.inr (Or.inl ⟨rest, by simp⟩)
  · cases rest with
    | nil => exact Or.inl (List.append_nil _)
    | cons b rest =>
      cases (List.cons.inj hRest).1
      exact Or.inr (Or.inr ⟨rest, by simp⟩)

/-- What keeps names apart in one module: its parts have distinct names, and no instance in it is named
like something inside another one. -/
structure ClearInstances (d : Design) (m : Module) : Prop where
  distinct : (m.cells.map Cell.name).Nodup
  clear    : ∀ c ∈ m.cells, (d.expandable? c.type).isSome = true → ¬d.LooksBelow m c.name

section Names

variable {d : Design} {top m m' : Module} {p q : InstancePath} {a b : String}

/-- Two cells of one name are one cell at one position. -/
theorem cell_unique_of_name (h : (m.cells.map Cell.name).Nodup) {i j : Nat} {c c' : Cell}
    (hi : m.cells[i]? = some c) (hj : m.cells[j]? = some c') (hName : c.name = c'.name) :
    c = c' ∧ i = j := by
  have hi' : (m.cells.map Cell.name)[i]? = some c.name := by rw [List.getElem?_map, hi]; rfl
  have hj' : (m.cells.map Cell.name)[j]? = some c.name := by rw [List.getElem?_map, hj, hName]; rfl
  have hLt := (List.getElem?_eq_some_iff.mp hi').1
  have hPosition : i = j := (List.getElem?_inj hLt h).mp (hi'.trans hj'.symm)
  subst hPosition
  rw [hi] at hj
  exact ⟨Option.some.inj hj, rfl⟩

/-- What is named by a way through an instance looks like something inside it. -/
theorem looksBelow_of_eq {i : Nat} {c : Cell} {below : Module} {rest : String}
    (hCell : m.cells[i]? = some c) (hBelow : d.expandable? c.type = some below)
    (h : a = c.name ++ "." ++ rest) : d.LooksBelow m a := by
  refine ⟨c, List.mem_of_getElem? hCell, by rw [hBelow]; rfl, rest.toList, ?_⟩
  rw [h]
  exact String.toList_append.symm

/-- **A name from the top leads to one object**, if no instance on the way and not the object itself is
named like something inside an instance beside it. By induction on the way: two ways that part in a
module would be told apart by the names of the cells there. -/
theorem nameBelow_inj (hClear : ∀ p m, d.Reaches top p m → d.ClearInstances m)
    (hp : d.Reaches top p m) (hq : d.Reaches top q m') (ha : ¬d.LooksBelow m a)
    (hb : ¬d.LooksBelow m' b) (h : nameBelow p a = nameBelow q b) : p = q ∧ a = b := by
  induction p generalizing top q with
  | nil =>
    rcases hp.uncons with ⟨-, rfl⟩ | ⟨_, _, _, hNil, -⟩
    · rcases hq.uncons with ⟨rfl, rfl⟩ | ⟨second, q, below', rfl, hSecond, hBelow', -⟩
      · rw [nameBelow_nil, nameBelow_nil] at h
        exact ⟨rfl, h⟩
      · rw [nameBelow_nil, nameBelow_cons] at h
        exact absurd (looksBelow_of_eq hSecond hBelow' h) ha
    · cases hNil
  | cons first p ih =>
    rcases hp.uncons with ⟨hNil, -⟩ | ⟨_, _, below, hEq, hFirst, hBelow, hRest⟩
    · cases hNil
    cases hEq
    rcases hq.uncons with ⟨rfl, rfl⟩ | ⟨second, q, below', rfl, hSecond, hBelow', hRest'⟩
    · rw [nameBelow_nil, nameBelow_cons] at h
      exact absurd (looksBelow_of_eq hFirst hBelow h.symm) hb
    · have hTop := hClear [] top .root
      have hFirstSome : (d.expandable? first.1.type).isSome = true := by rw [hBelow]; rfl
      have hSecondSome : (d.expandable? second.1.type).isSome = true := by rw [hBelow']; rfl
      have hFirstMem := List.mem_of_getElem? hFirst
      have hSecondMem := List.mem_of_getElem? hSecond
      have hChars : first.1.name.toList ++ '.' :: (nameBelow p a).toList =
          second.1.name.toList ++ '.' :: (nameBelow q b).toList := by
        rw [nameBelow_cons, nameBelow_cons] at h
        simpa using congrArg String.toList h
      -- neither instance is named like something inside the other, so the ways begin alike
      have hNames : first.1.name = second.1.name := by
        rcases eq_or_prefix_of_append_eq hChars with hSame | hPrefix | hPrefix
        · exact String.toList_inj.mp hSame
        · refine absurd ⟨first.1, hFirstMem, hFirstSome, ?_⟩ (hTop.clear _ hSecondMem hSecondSome)
          simpa using hPrefix
        · refine absurd ⟨second.1, hSecondMem, hSecondSome, ?_⟩ (hTop.clear _ hFirstMem hFirstSome)
          simpa using hPrefix
      obtain ⟨hCell, hPosition⟩ := cell_unique_of_name hTop.distinct hFirst hSecond hNames
      have hStep : first = second := Prod.ext hCell hPosition
      subst hStep
      rw [hBelow] at hBelow'
      cases hBelow'
      have hRestName : nameBelow p a = nameBelow q b := by
        refine String.toList_inj.mp ?_
        simpa using hChars
      have hInside : ∀ p m, d.Reaches below p m → d.ClearInstances m := fun p m hReaches =>
        hClear _ m (Reaches.append (.child .root hFirst hBelow) hReaches)
      obtain ⟨rfl, rfl⟩ := ih hInside hRest hRest' hRestName
      exact ⟨rfl, rfl⟩

/-- Cells of one name from the top are one cell, if no cell is named like something inside an instance
beside it. -/
theorem placement_unique (hDistinct : ∀ p m, d.Reaches top p m → (m.cells.map Cell.name).Nodup)
    (hClear : ∀ p m, d.Reaches top p m → ∀ c ∈ m.cells, ¬d.LooksBelow m c.name) {x y : Placement}
    (hx : d.HasCell top x) (hy : d.HasCell top y) (h : x.name = y.name) : x = y := by
  obtain ⟨m, hm, hxCell⟩ := hx
  obtain ⟨m', hm', hyCell⟩ := hy
  have hInstances : ∀ p m, d.Reaches top p m → d.ClearInstances m := fun p m hReaches =>
    ⟨hDistinct p m hReaches, fun c hc _ => hClear p m hReaches c hc⟩
  obtain ⟨hScope, hName⟩ := nameBelow_inj hInstances hm hm'
    (hClear _ m hm _ (List.mem_of_getElem? hxCell)) (hClear _ m' hm' _ (List.mem_of_getElem? hyCell)) h
  rw [hScope] at hm
  cases hm.unique hm'
  obtain ⟨hCell, hPosition⟩ := cell_unique_of_name (hDistinct _ m hm') hxCell hyCell hName
  refine Placement.path_injective ?_
  rw [Placement.path, Placement.path, hScope, hCell, hPosition]

end Names

-- ---------------------------------------------------------------------------
-- The flat top
-- ---------------------------------------------------------------------------

/-- The net names of all instances. -/
def HasName (d : Design) (top : Module) (p : InstancePath) (n : NetName) : Prop :=
  ∃ m, d.Reaches top p m ∧ n ∈ m.netnames

section Flattened

variable {d : Design} {top : Module} {leaves : List Placement} {scopes : List (InstancePath × Module)}

theorem Enumerates.mem_namesOf (h : d.Enumerates top leaves scopes) {e : InstancePath × NetName} :
    e ∈ namesOf scopes ↔ d.HasName top e.1 e.2 := by
  rw [namesOf, List.mem_flatMap]
  constructor
  · rintro ⟨⟨p, m⟩, hScope, he⟩
    obtain ⟨n, hn, rfl⟩ := List.mem_map.mp he
    exact ⟨m, h.reached p m hScope, hn⟩
  · rintro ⟨m, hReaches, hn⟩
    refine ⟨(e.1, m), h.complete e.1 m hReaches (List.ne_nil_of_mem hn), ?_⟩
    exact List.mem_map_of_mem (f := fun n => (e.1, n)) hn

/-- No net name of an instance is listed twice. -/
theorem Enumerates.nodup_namesOf (h : d.Enumerates top leaves scopes)
    (hNets : ∀ p m, d.Reaches top p m → (m.netnames.map NetName.name).Nodup) :
    (namesOf scopes).Nodup := by
  rw [namesOf, List.nodup_flatMap]
  constructor
  · rintro ⟨p, m⟩ hScope
    have hNodup := (hNets p m (h.reached p m hScope)).of_map
    exact hNodup.map fun n n' hEq => (Prod.mk.inj hEq).2
  · refine h.scopes_nodup.pairwise_of_forall_ne ?_
    rintro ⟨p, m⟩ hScope ⟨p', m'⟩ hScope' hNe e he he'
    -- one way would lead to two modules
    obtain ⟨n, -, rfl⟩ := List.mem_map.mp he
    obtain ⟨n', -, hEq⟩ := List.mem_map.mp he'
    cases (Prod.mk.inj hEq).1
    exact hNe (by rw [(h.reached p m hScope).unique (h.reached p m' hScope')])

theorem Flattened.map_name {ledger : Ledger} {cells : List Cell} {netnames : List NetName}
    (h : Flattened d top leaves scopes ledger cells netnames) :
    cells.map Cell.name = leaves.map Placement.name ∧
      netnames.map NetName.name = (namesOf scopes).map fun e => nameBelow e.1 e.2.name := by
  obtain ⟨hCells, hNames⟩ := h.outlines
  have hCellNames := congrArg (List.map CellOutline.name) hCells
  have hNetNames := congrArg (List.map NameOutline.name) hNames
  simp only [List.map_map] at hCellNames hNetNames
  exact ⟨hCellNames, hNetNames⟩

end Flattened

/-- **Names in a flat top.** The cells have distinct names exactly if no two cells that stay are reached
by ways that read the same, and so for nets. No two ways read the same if no cell, or for nets no
instance and no net, is named like something inside an instance beside it. -/
theorem flatten_names {choice : TopChoice} {text : String} {d d' : Design}
    (hParse : Design.parse choice text = .ok d) (h : d.flatten = (d', none)) :
    ∃ top flat, d.topModule? = some top ∧ d'.topModule? = some flat ∧
      ((flat.cells.map Cell.name).Nodup ↔
        ∀ x y, d.HasCell top x → d.HasCell top y → d.expandable? x.cell.type = none →
          d.expandable? y.cell.type = none → x.name = y.name → x = y) ∧
      ((flat.netnames.map NetName.name).Nodup ↔
        ∀ p q n n', d.HasName top p n → d.HasName top q n' →
          nameBelow p n.name = nameBelow q n'.name → p = q ∧ n = n') ∧
      ((∀ p m, d.Reaches top p m → ∀ c ∈ m.cells, ¬d.LooksBelow m c.name) →
        (flat.cells.map Cell.name).Nodup) ∧
      ((∀ p m, d.Reaches top p m →
          (∀ c ∈ m.cells, (d.expandable? c.type).isSome = true → ¬d.LooksBelow m c.name) ∧
            ∀ n ∈ m.netnames, ¬d.LooksBelow m n.name) →
        (flat.netnames.map NetName.name).Nodup) := by
  obtain ⟨top, leaves, scopes, ledger, cells, netnames, hTop, hFlattened, rfl⟩ := flatten_elaborates h
  obtain ⟨hCells, hNames⟩ := hFlattened.map_name
  have hEnumerates := hFlattened.enumerates
  have hParts : ∀ p m, d.Reaches top p m → m.DistinctParts := fun p m hReaches =>
    parse_distinctParts hParse m (hReaches.mem_modules_of_top hTop)
  have hCellsIff : (cells.map Cell.name).Nodup ↔
      ∀ x y, d.HasCell top x → d.HasCell top y → d.expandable? x.cell.type = none →
        d.expandable? y.cell.type = none → x.name = y.name → x = y := by
    rw [hCells, List.nodup_map_iff_inj_on hEnumerates.leaves_nodup]
    simp only [hEnumerates.mem_leaves]
    exact ⟨fun hInj x y hx hy hxLeaf hyLeaf => hInj x ⟨hx, hxLeaf⟩ y ⟨hy, hyLeaf⟩,
      fun hInj x hx y hy => hInj x y hx.1 hy.1 hx.2 hy.2⟩
  have hNetsIff : (netnames.map NetName.name).Nodup ↔
      ∀ p q n n', d.HasName top p n → d.HasName top q n' →
        nameBelow p n.name = nameBelow q n'.name → p = q ∧ n = n' := by
    rw [hNames, List.nodup_map_iff_inj_on (hEnumerates.nodup_namesOf fun p m hm => (hParts p m hm).nets)]
    simp only [hEnumerates.mem_namesOf]
    exact ⟨fun hInj p q n n' hn hn' hEq => Prod.mk.inj (hInj (p, n) hn (q, n') hn' hEq),
      fun hInj e he e' he' hEq => Prod.ext_iff.mpr (hInj e.1 e'.1 e.2 e'.2 he he' hEq)⟩
  refine ⟨top, { top with cells, netnames }, hTop, topModule?_withContents hTop, hCellsIff, hNetsIff,
    fun hClear => hCellsIff.mpr fun x y hx hy _ _ => ?_,
    fun hClear => hNetsIff.mpr fun p q n n' hn hn' hEq => ?_⟩
  · exact placement_unique (fun p m hm => (hParts p m hm).cells) hClear hx hy
  · obtain ⟨m, hm, hMem⟩ := hn
    obtain ⟨m', hm', hMem'⟩ := hn'
    have hInstances : ∀ p m, d.Reaches top p m → d.ClearInstances m := fun p m hReaches =>
      ⟨(hParts p m hReaches).cells, (hClear p m hReaches).1⟩
    obtain ⟨rfl, hName⟩ := nameBelow_inj hInstances hm hm' ((hClear p m hm).2 n hMem)
      ((hClear q m' hm').2 n' hMem') hEq
    cases hm.unique hm'
    exact ⟨rfl, List.inj_on_of_nodup_map (hParts p m hm).nets hMem hMem' hName⟩

end Design

/-! ## A cell named like one below another -/

/-- An instance `u` of a module with a cell `x` and a net `n`, and beside it a cell and a net of the given
names. -/
def siblingDesign (cell net : String) : Design :=
  { modules :=
      [{ name := "top", attributes := [("top", "1")], parameters := [], ports := []
         cells := [⟨"u", "leaf", []⟩, ⟨cell, "BUF", []⟩], netnames := [⟨net, [.net 2], false, false⟩]
         blackbox := false },
        { name := "leaf", attributes := [], parameters := [], ports := [], cells := [⟨"x", "INV", []⟩]
          netnames := [⟨"n", [.net 2], false, false⟩], blackbox := false }]
    top := some "top"
    flattened := false }

/-- An object as it is written in JSON, given the keys and the texts of its members. -/
def writeObject (members : List (String × List Char)) : List Char :=
  '\x7b' :: [','].intercalate (members.map fun e => '"' :: e.1.toList ++ '"' :: ':' :: e.2) ++ ['\x7d']

/-- The netlist text of the design with these siblings. -/
def siblingText (cell net : String) : String :=
  String.ofList <| writeObject [("modules", writeObject
    [("top", writeObject
        [("attributes", writeObject [("top", ['1'])]),
          ("cells", writeObject
            [("u", writeObject [("type", "\"leaf\"".toList)]),
              (cell, writeObject [("type", "\"BUF\"".toList)])]),
          ("netnames", writeObject [(net, writeObject [("bits", "[2]".toList)])])]),
      ("leaf", writeObject
        [("cells", writeObject [("x", writeObject [("type", "\"INV\"".toList)])]),
          ("netnames", writeObject [("n", writeObject [("bits", "[2]".toList)])])])])]

/-- Reading a text given by its characters. -/
theorem Json.read?_ofList (cs : List Char) : read? (String.ofList cs) =
    match readValue (2 * cs.length + 2) cs with
    | some (v, rest) => if (skipBlanks rest).isEmpty then some v else none
    | none => none := by
  show (match readValue (2 * (String.ofList cs).toList.length + 2) (String.ofList cs).toList with
    | some (v, rest) => if (skipBlanks rest).isEmpty then some v else none
    | none => none) = _
  rw [String.toList_ofList]

/-- Both objects inside the instance are named after it. -/
theorem siblingDesign_flattens (cell net : String) : ∃ flat,
    (siblingDesign cell net).flatten = ((siblingDesign cell net).flatten.1, none) ∧
      (siblingDesign cell net).flatten.1.topModule? = some flat ∧
      flat.cells.map Cell.name = [cell, "u.x"] ∧ flat.netnames.map NetName.name = [net, "u.n"] :=
  ⟨_, rfl, rfl, rfl, rfl⟩

/-- Dots in names do no harm where nothing is named after an instance. -/
theorem siblingText_distinct : ∃ flat,
    Design.parse {} (siblingText "w.x" "w.n") = .ok (siblingDesign "w.x" "w.n") ∧
      (siblingDesign "w.x" "w.n").flatten = ((siblingDesign "w.x" "w.n").flatten.1, none) ∧
      (siblingDesign "w.x" "w.n").flatten.1.topModule? = some flat ∧
      flat.cells.map Cell.name = ["w.x", "u.x"] ∧ flat.netnames.map NetName.name = ["w.n", "u.n"] ∧
      (flat.cells.map Cell.name).Nodup ∧ (flat.netnames.map NetName.name).Nodup := by
  have hParse : Design.parse {} (siblingText "w.x" "w.n") = .ok (siblingDesign "w.x" "w.n") := by
    rw [Design.parse, siblingText, Json.read?_ofList]
    decide +kernel
  have hClear : ∀ m ∈ (siblingDesign "w.x" "w.n").modules,
      (∀ c ∈ m.cells, ¬(siblingDesign "w.x" "w.n").LooksBelow m c.name) ∧
        ∀ n ∈ m.netnames, ¬(siblingDesign "w.x" "w.n").LooksBelow m n.name := by
    decide +kernel
  obtain ⟨flat, hFlatten, hFlat, hCells, hNets⟩ := siblingDesign_flattens "w.x" "w.n"
  obtain ⟨top, flat', hTop, hFlat', -, -, hCellNames, hNetNames⟩ := Design.flatten_names hParse hFlatten
  rw [hFlat] at hFlat'
  cases hFlat'
  refine ⟨flat, hParse, hFlatten, hFlat, hCells, hNets, hCellNames fun p m hm => ?_,
    hNetNames fun p m hm => ?_⟩
  · exact (hClear m (hm.mem_modules_of_top hTop)).1
  · obtain ⟨hCell, hNet⟩ := hClear m (hm.mem_modules_of_top hTop)
    exact ⟨fun c hc _ => hCell c hc, hNet⟩

/-- **Different objects of a flat top may share a name**, for cells and for nets. -/
theorem siblingText_clash : ∃ flat,
    Design.parse {} (siblingText "u.x" "u.n") = .ok (siblingDesign "u.x" "u.n") ∧
      (siblingDesign "u.x" "u.n").flatten = ((siblingDesign "u.x" "u.n").flatten.1, none) ∧
      (siblingDesign "u.x" "u.n").flatten.1.topModule? = some flat ∧
      ¬(flat.cells.map Cell.name).Nodup ∧ ¬(flat.netnames.map NetName.name).Nodup := by
  obtain ⟨flat, hFlatten, hFlat, hCells, hNets⟩ := siblingDesign_flattens "u.x" "u.n"
  have hParse : Design.parse {} (siblingText "u.x" "u.n") = .ok (siblingDesign "u.x" "u.n") := by
    rw [Design.parse, siblingText, Json.read?_ofList]
    decide +kernel
  refine ⟨flat, hParse, hFlatten, hFlat, ?_, ?_⟩
  · rw [hCells]
    decide
  · rw [hNets]
    decide

end ProbeAtlas
