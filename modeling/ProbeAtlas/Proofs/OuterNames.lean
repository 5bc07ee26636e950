import ProbeAtlas.Proofs.Denotation
import ProbeAtlas.Proofs.FlatContents

/-!
# ProbeAtlas — flattening does not rename what the top names

Flattening gives nets of the top further names, as many as there are instances that the nets run through. The
names come behind those that the top has already, and each has at least two levels, because it begins with
the name of a cell. A name gives way only to a strictly better one, so a public name of one or two levels is
not displaced by any of them. The nets of the top keep their numbers, and a connection is described by the
preferred names of its nets alone.

Main results:

* `Design.flatten_netnames` — the net names of a flat top are those of the top and then names of at least two
  levels.
* `Design.flatten_fragments` — connections of nets that have such a public name are described as before.
-/

namespace ProbeAtlas

-- ---------------------------------------------------------------------------
-- Names that come behind
-- ---------------------------------------------------------------------------

namespace Module

/-- Names that are no better do not displace a preferred one. -/
theorem preferAmong_of_le {id : Nat} {b : NamedBit} {ns : List NetName}
    (h : ∀ n ∈ ns, b.net.rank ≤ n.rank) : preferAmong id (some b) ns = some b := by
  induction ns with
  | nil => rfl
  | cons n ns ih =>
    obtain ⟨hFirst, hRest⟩ := List.forall_mem_cons.mp h
    have hStays : NamedBit.prefer (some b) (n.locate? id) = some b := by
      refine NamedBit.prefer_of_le fun b' hLocate => ?_
      rwa [(NetName.locate?_eq_some_iff.mp hLocate).1]
    rw [preferAmong_cons, hStays]
    exact ih hRest

variable {m m' : Module} {more : List NetName}

/-- **A net with a good name keeps its preferred name**, whatever names of no lower rank come behind. -/
theorem nameOf?_of_append {id rank : Nat} (hNames : m'.netnames = m.netnames ++ more)
    (hGood : ∃ n ∈ m.netnames, .net id ∈ n.bits ∧ n.rank ≤ rank) (hMore : ∀ n ∈ more, rank ≤ n.rank) :
    m'.nameOf? id = m.nameOf? id := by
  obtain ⟨n, hn, hNet, hRank⟩ := hGood
  obtain ⟨b, hBest, hLeast⟩ := exists_nameOf? ⟨n, hn, hNet⟩
  rw [nameOf?_eq_preferAmong m', hNames, preferAmong, List.foldl_append]
  show preferAmong id (preferAmong id none m.netnames) more = _
  rw [← nameOf?_eq_preferAmong, hBest]
  exact preferAmong_of_le fun n' hn' =>
    Nat.le_trans (hLeast.rank_le hn hNet) (Nat.le_trans hRank (hMore n' hn'))

/-- Fragments depend on the preferred names of the nets only. -/
theorem fragments_congr {bits : List Bit} (h : ∀ id, .net id ∈ bits → m'.nameOf? id = m.nameOf? id) :
    m'.fragments bits = m.fragments bits := by
  refine List.foldl_ext _ _ _ fun fragments b hb => ?_
  cases b with
  | const level => rfl
  | net id =>
    have hName : m'.bitNames.get? id = m.bitNames.get? id := h id hb
    rw [addBit, addBit, hName]

end Module

-- ---------------------------------------------------------------------------
-- Names of instances
-- ---------------------------------------------------------------------------

theorem levelsOf_append (cell name : String) :
    levelsOf (cell ++ "." ++ name) = levelsOf cell + levelsOf name := by
  simp only [levelsOf, String.toList_append, List.count_append]
  simp
  omega

/-- The names that inlining puts in begin with the name of the cell. -/
theorem Renaming.name_of_mem_netnames {r : Renaming} {cell : String} {ns : List NetName} {n : NetName}
    (h : n ∈ (r.netnames cell ns).1) : ∃ n' ∈ ns, n.name = cell ++ "." ++ n'.name := by
  induction ns generalizing r with
  | nil => cases h
  | cons first ns ih =>
    rcases List.mem_cons.mp h with rfl | h
    · exact ⟨first, List.mem_cons_self .., rfl⟩
    · obtain ⟨n', hMem, hName⟩ := ih h
      exact ⟨n', List.mem_cons_of_mem _ hMem, hName⟩

theorem two_le_rank_of_inlined {cell : Cell} {child : Module} {counter : Nat} {n : NetName}
    (h : n ∈ (inlineCell cell child counter).netnames) : 2 ≤ n.rank := by
  obtain ⟨n', -, hName⟩ := Renaming.name_of_mem_netnames h
  rw [NetName.rank, hName, levelsOf_append, levelsOf, levelsOf]
  omega

namespace Elaboration

/-- What holds of the state alone is preserved together with anything else. -/
theorem Follows.and_state {d : Design} {top : Module}
    {I : Elaboration → List Placement → List Cell → Flat → Prop} (hI : Follows d top I) {P : Flat → Prop}
    (hKeep : ∀ s c, P s → P { s with kept := s.kept.push c })
    (hInline : ∀ s c below, P s → P (s.inline c below))
    (hAdvance : ∀ s, P s → P { s with pending := #[] }) :
    Follows d top fun g front cells s => I g front cells s ∧ P s where
  types h := hI.types h.1
  keep h := ⟨hI.keep h.1, hKeep _ _ h.2⟩
  inline h hCovers hBelow := ⟨hI.inline h.1 hCovers hBelow, hInline _ _ _ h.2⟩
  advance h := ⟨hI.advance h.1, hAdvance _ h.2⟩

end Elaboration

/-- The net names of the state are those of the top, and behind them names that are no better than public ones
of two levels. -/
def Flat.Appends (top : Module) (s : Flat) : Prop :=
  ∃ more, s.netnames.toList = top.netnames ++ more ∧ ∀ n ∈ more, 2 ≤ n.rank

theorem Flat.Appends.inline {top : Module} {s : Flat} (h : s.Appends top) (c : Cell) (below : Module) :
    (s.inline c below).Appends top := by
  obtain ⟨more, hNames, hMore⟩ := h
  refine ⟨more ++ (inlineCell c below s.counter).netnames, ?_, fun n hn => ?_⟩
  · rw [netnames_inline, hNames, List.append_assoc]
  · rcases List.mem_append.mp hn with hn | hn
    · exact hMore n hn
    · exact two_le_rank_of_inlined hn

theorem Flat.appends_initialFlat (top : Module) : (Design.initialFlat top).Appends top :=
  ⟨[], (List.append_nil _).symm, by simp⟩

namespace Design

/-- **The net names of a flat top.** Those of the top come first, unchanged, and behind them only names that
are no better than public ones of two levels. -/
theorem flatten_netnames {d d' : Design} (h : d.flatten = (d', none)) : ∃ top top' more,
    d.topModule? = some top ∧ d'.topModule? = some top' ∧ top'.netnames = top.netnames ++ more ∧
      ∀ n ∈ more, 2 ≤ n.rank := by
  have hFollows : ∀ top, Elaboration.Follows d top fun g front cells s =>
      (∃ ledger, g.Matches d top ledger front cells s) ∧ s.Appends top := fun top =>
    (Elaboration.follows_matches d top).and_state (fun _ _ hs => hs) (fun _ c below hs => hs.inline c below)
      fun _ hs => hs
  obtain ⟨top, -, -, -, s, hTop, -, ⟨-, more, hNames, hMore⟩, -, -, rfl⟩ :=
    flatten_follows h hFollows fun top => ⟨⟨[], matches_start d top⟩, Flat.appends_initialFlat top⟩
  exact ⟨top, _, more, hTop, topModule?_withContents hTop, hNames, hMore⟩

/-- **Flattening does not rename what the top names.** The fragments of a connection are the same before and
after, if each of its nets has a public name of at most two levels in the top. -/
theorem flatten_fragments {d d' : Design} (h : d.flatten = (d', none)) : ∃ top top',
    d.topModule? = some top ∧ d'.topModule? = some top' ∧ ∀ bits : List Bit,
      (∀ id, .net id ∈ bits →
        ∃ n ∈ top.netnames, .net id ∈ n.bits ∧ n.hidden = false ∧ levelsOf n.name ≤ 2) →
      top'.fragments bits = top.fragments bits := by
  obtain ⟨top, top', more, hTop, hTop', hNames, hMore⟩ := flatten_netnames h
  refine ⟨top, top', hTop, hTop', fun bits hBits => Module.fragments_congr fun id hid => ?_⟩
  obtain ⟨n, hn, hNet, hPublic, hLevels⟩ := hBits id hid
  refine Module.nameOf?_of_append hNames ⟨n, hn, hNet, ?_⟩ hMore
  rw [NetName.rank, hPublic, if_neg (by decide), Nat.zero_add]
  exact hLevels

end Design

/-! ## A net with an alias inside an instance -/

/-- A net of the top under the given name, which an instance knows by a public name as well. -/
def aliasDesign (name : String) : Design :=
  { modules :=
      [{ name := "top", attributes := [], parameters := [], ports := []
         cells := [⟨"u", "leaf", [("p", [.net 2])]⟩]
         netnames := [⟨"$3", [.net 2], true, false⟩, ⟨name, [.net 2, .net 3], false, false⟩]
         blackbox := false },
        { name := "leaf", attributes := [], parameters := [], ports := [("p", ⟨.input, [.net 7]⟩)]
          cells := [], netnames := [⟨"p", [.net 7], false, false⟩], blackbox := false }]
    top := some "top"
    flattened := false }

/-- A name of two levels stands against the name `u.p` of the same rank. -/
theorem aliasDesign_keeps : ∃ top top',
    (aliasDesign "w.q").flatten = ((aliasDesign "w.q").flatten.1, none) ∧
      (aliasDesign "w.q").topModule? = some top ∧ (aliasDesign "w.q").flatten.1.topModule? = some top' ∧
      top'.netnames.map NetName.name = ["$3", "w.q", "u.p"] ∧
      top'.fragments [.net 2, .net 3, .const .one] = top.fragments [.net 2, .net 3, .const .one] := by
  have hFlatten : (aliasDesign "w.q").flatten = ((aliasDesign "w.q").flatten.1, none) :=
    Prod.ext rfl (by decide +kernel)
  obtain ⟨top, top', hTop, hTop', hSame⟩ := Design.flatten_fragments hFlatten
  refine ⟨top, top', hFlatten, hTop, hTop', ?_, hSame _ fun id hid => ?_⟩
  · have hNames : (aliasDesign "w.q").flatten.1.topModule?.map (fun m => m.netnames.map NetName.name) =
        some ["$3", "w.q", "u.p"] := by decide +kernel
    rw [hTop'] at hNames
    exact Option.some.inj hNames
  · cases hTop
    refine ⟨⟨"w.q", [.net 2, .net 3], false, false⟩, by simp, ?_, rfl, by decide⟩
    simpa using hid

/-- A name of three levels gives way to it. -/
example : (aliasDesign "v.w.q").flatten.1.topModule?.map (fun m => m.fragments [.net 2, .net 3]) =
    some [.slice ⟨"v.w.q", 2, 1, 1, false⟩, .slice ⟨"u.p", 1, 1, 0, false⟩] := by
  decide +kernel

end ProbeAtlas
