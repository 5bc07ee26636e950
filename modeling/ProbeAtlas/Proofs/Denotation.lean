import Mathlib.Data.List.Chain
import Mathlib.Data.List.Nodup
import ProbeAtlas.Netlist.Connection
import ProbeAtlas.Proofs.NamePreference
import ProbeAtlas.Proofs.NetNumeral

/-!
# ProbeAtlas — what fragments stand for

The fragments of a connection are read back bit by bit: a constant by its characters, a slice by the bits of
the net of its name, a slice of no such net by the net number behind its mark. The least significant
fragment is the last one, and a constant holds its most significant bit first.

Fragments are put together from the least significant bit on, and only the fragment in front ever changes.
A bit begins a fragment of its own (`Reads.begin`) or widens the one in front (`Reads.widen`), and both keep
what is known of the fragments so far (`Reads`).

Main result:

* `Module.fragments_denote` — the fragments of a connection stand for its bits, slices are described as
  their nets are declared, and no two neighbours could be one fragment.
-/

namespace ProbeAtlas

-- ---------------------------------------------------------------------------
-- Reading fragments back
-- ---------------------------------------------------------------------------

namespace Module

/-- The bits that a fragment stands for, least significant first. -/
def bitsOf? (m : Module) : Fragment → Option (List Bit)
  | .constant bits => bits.reverse.mapM fun c => (Level.ofText? (String.singleton c)).map .const
  | .slice s =>
    match m.netnames.find? fun n => n.name == s.wire with
    | some n => some ((n.bits.drop s.offset).take s.width)
    | none =>
      match s.wire.toList with
      | '$' :: numeral => (netOfNumeral? numeral).map fun id => [.net id]
      | _ => none

/-- The bits that some fragments stand for, from the last fragment to the first. -/
def expand? (m : Module) : List Fragment → Option (List Bit)
  | [] => some []
  | f :: below => (m.expand? below).bind fun low => (m.bitsOf? f).map fun high => low ++ high

end Module

/-- The fragment above continues the one below: both are constants, or slices of one wire that meet. -/
def Fragment.Joins : Fragment → Fragment → Prop
  | .constant _, .constant _ => True
  | .slice lower, .slice upper => lower.wire = upper.wire ∧ lower.offset + lower.width = upper.offset
  | _, _ => False

/-- The slice lies in the net and is described as the net is declared. -/
structure NetName.Cut (n : NetName) (s : Slice) : Prop where
  wire      : n.name = s.wire
  within    : s.offset + s.width ≤ s.wireWidth
  wireWidth : s.wireWidth = n.bits.length
  msbFirst  : s.msbFirst = n.upto

namespace Module

variable {m : Module} {bits : List Bit} {fs : List Fragment}

theorem expand?_cons {f : Fragment} :
    m.expand? (f :: fs) = some bits ↔
      ∃ low high, m.expand? fs = some low ∧ m.bitsOf? f = some high ∧ bits = low ++ high := by
  rw [expand?]
  simp only [Option.bind_eq_some_iff, Option.map_eq_some_iff]
  constructor
  · rintro ⟨low, hLow, high, hHigh, rfl⟩
    exact ⟨low, high, hLow, hHigh, rfl⟩
  · rintro ⟨low, high, hLow, hHigh, rfl⟩
    exact ⟨low, hLow, high, hHigh, rfl⟩

theorem bitsOf?_constant_cons (level : Level) {cs : List Char} {high : List Bit}
    (h : m.bitsOf? (.constant cs) = some high) :
    m.bitsOf? (.constant (level.char :: cs)) = some (high ++ [.const level]) := by
  have hLevel : Level.ofText? (String.singleton level.char) = some level := by cases level <;> decide
  rw [bitsOf?] at h ⊢
  rw [List.reverse_cons, List.mapM_append, h]
  simp [hLevel]

/-- Under distinct names, a slice is read in the net that has the name of its wire. -/
theorem bitsOf?_slice (hNames : (m.netnames.map NetName.name).Nodup) {n : NetName} (hn : n ∈ m.netnames)
    {s : Slice} (hWire : n.name = s.wire) :
    m.bitsOf? (.slice s) = some ((n.bits.drop s.offset).take s.width) := by
  have hFind : m.netnames.find? (fun n => n.name == s.wire) = some n := by
    cases hFound : m.netnames.find? (fun n => n.name == s.wire) with
    | none => exact absurd (beq_iff_eq.mpr hWire) (List.find?_eq_none.mp hFound n hn)
    | some n' =>
      have hFoundWire : n'.name = s.wire := by simpa using List.find?_some hFound
      have hSame : n'.name = n.name := hFoundWire.trans hWire.symm
      rw [List.inj_on_of_nodup_map hNames (List.mem_of_find?_eq_some hFound) hn hSame]
  rw [bitsOf?, hFind]

theorem bitsOf?_anonymous {id : Nat} (hNet : IsNet id)
    (hFree : ∀ n ∈ m.netnames, n.name ≠ "$" ++ netText id) :
    m.bitsOf? (.slice (anonymous id)) = some [.net id] := by
  have hFind : m.netnames.find? (fun n => n.name == "$" ++ netText id) = none := by
    rw [List.find?_eq_none]
    intro n hn
    rw [beq_iff_eq]
    exact hFree n hn
  have hWire : ("$" ++ netText id).toList = '$' :: (netText id).toList := String.toList_append
  rw [bitsOf?, anonymous, hFind, hWire]
  show (netOfNumeral? (netText id).toList).map _ = _
  rw [netOfNumeral?_netText hNet]
  rfl

end Module

-- ---------------------------------------------------------------------------
-- Names of nets
-- ---------------------------------------------------------------------------

namespace Module

variable {m : Module} {bits : List Bit} {fs : List Fragment}

/-- The net stands under no name in the module. -/
def Unnamed (m : Module) (id : Nat) : Prop :=
  ∀ n ∈ m.netnames, .net id ∉ n.bits

/-- The preferred name of a net is one of its names. -/
theorem nameOf?_eq_some {id : Nat} {b : NamedBit} (h : m.nameOf? id = some b) :
    b.net ∈ m.netnames ∧ b.net.bits[b.position]? = some (.net id) := by
  have hLeast : Chosen id m.netnames (some b) := h ▸ m.chosen_nameOf? id
  exact ⟨hLeast.mem, hLeast.bit_eq⟩

theorem unnamed_of_nameOf? {id : Nat} (h : m.nameOf? id = none) : m.Unnamed id := by
  have hNone : Chosen id m.netnames none := h ▸ m.chosen_nameOf? id
  exact hNone

-- ---------------------------------------------------------------------------
-- Bit by bit
-- ---------------------------------------------------------------------------

/-- The slice is a part of a net, or no net has the name of its wire. -/
def Cuts (m : Module) (s : Slice) : Prop :=
  0 < s.width ∧ ((∃ n ∈ m.netnames, n.Cut s) ∨ ∀ n ∈ m.netnames, n.name ≠ s.wire)

/-- What is known of the fragments of the bits so far. -/
structure Reads (m : Module) (bits : List Bit) (fs : List Fragment) : Prop where
  expands : m.expand? fs = some bits
  cuts    : ∀ s, .slice s ∈ fs → m.Cuts s
  maximal : fs.IsChain fun upper lower => ¬lower.Joins upper

/-- A bit begins a fragment that does not continue the one below. -/
theorem Reads.begin {f : Fragment} {b : Bit} (h : m.Reads bits fs) (hBits : m.bitsOf? f = some [b])
    (hCuts : ∀ s, f = .slice s → m.Cuts s) (hApart : ∀ g ∈ fs.head?, ¬g.Joins f) :
    m.Reads (bits ++ [b]) (f :: fs) where
  expands := expand?_cons.mpr ⟨bits, [b], h.expands, hBits, rfl⟩
  cuts s hs := by
    rcases List.mem_cons.mp hs with hFront | hs
    · exact hCuts s hFront.symm
    · exact h.cuts s hs
  maximal := List.isChain_cons.mpr ⟨hApart, h.maximal⟩

/-- A bit widens the fragment in front, which begins where it began. -/
theorem Reads.widen {f f' : Fragment} {b : Bit} (h : m.Reads bits (f :: fs))
    (hBits : ∀ high, m.bitsOf? f = some high → m.bitsOf? f' = some (high ++ [b]))
    (hCuts : ∀ s, f' = .slice s → m.Cuts s) (hSame : ∀ g : Fragment, g.Joins f' ↔ g.Joins f) :
    m.Reads (bits ++ [b]) (f' :: fs) where
  expands := by
    obtain ⟨low, high, hLow, hHigh, rfl⟩ := expand?_cons.mp h.expands
    exact expand?_cons.mpr ⟨low, high ++ [b], hLow, hBits high hHigh, List.append_assoc ..⟩
  cuts s hs := by
    rcases List.mem_cons.mp hs with hFront | hs
    · exact hCuts s hFront.symm
    · exact h.cuts s (List.mem_cons_of_mem _ hs)
  maximal := by
    obtain ⟨hFront, hRest⟩ := List.isChain_cons.mp h.maximal
    exact List.isChain_cons.mpr ⟨fun g hg hJoins => hFront g hg ((hSame g).mp hJoins), hRest⟩

theorem Reads.addConst (h : m.Reads bits fs) (level : Level) :
    m.Reads (bits ++ [.const level]) (addBit m.bitNames fs (.const level)) := by
  have hEmpty : m.bitsOf? (.constant []) = some [] := rfl
  have hOne := bitsOf?_constant_cons level hEmpty
  rcases fs with _ | ⟨cs | s, rest⟩
  · exact h.begin hOne (by rintro s ⟨⟩) (by simp)
  · refine h.widen (fun high => bitsOf?_constant_cons level) (by rintro s ⟨⟩) fun g => ?_
    cases g <;> exact Iff.rfl
  · refine h.begin hOne (by rintro s ⟨⟩) ?_
    rintro g ⟨⟩ hJoins
    exact hJoins

/-- A net without a name is never joined with the slice below: its position is the first one. -/
theorem Reads.addAnonymous (h : m.Reads bits fs) {id : Nat} (hNone : m.nameOf? id = none) (hNet : IsNet id)
    (hFree : ∀ n ∈ m.netnames, n.name ≠ "$" ++ netText id) :
    m.Reads (bits ++ [.net id]) (addBit m.bitNames fs (.net id)) := by
  have hAdd : addBit m.bitNames fs (.net id) = .slice (anonymous id) :: fs := by
    have hName : m.bitNames.get? id = none := hNone
    rw [addBit, hName]
  rw [hAdd]
  refine h.begin (bitsOf?_anonymous hNet hFree) ?_ fun g hg hJoins => ?_
  · rintro s ⟨⟩
    exact ⟨Nat.one_pos, Or.inr hFree⟩
  · cases g with
    | constant cs => exact hJoins
    | slice s =>
      have hWidth := (h.cuts s (List.mem_of_mem_head? hg)).1
      have hMeet : s.offset + s.width = 0 := hJoins.2
      omega

/-- A named net widens the slice below if it is the next bit of that net. -/
theorem Reads.addNamed (h : m.Reads bits fs) (hNames : (m.netnames.map NetName.name).Nodup) {id : Nat}
    {b : NamedBit} (hSome : m.nameOf? id = some b) :
    m.Reads (bits ++ [.net id]) (addBit m.bitNames fs (.net id)) := by
  obtain ⟨hMem, hAt⟩ := nameOf?_eq_some hSome
  have hName : m.bitNames.get? id = some b := hSome
  obtain ⟨hLt, -⟩ := List.getElem?_eq_some_iff.mp hAt
  have hOne : m.bitsOf? (.slice (sliceAt b)) = some [.net id] := by
    rw [bitsOf?_slice hNames hMem rfl]
    simp [sliceAt, List.take_add_one, hAt]
  have hCuts : ∀ s, Fragment.slice (sliceAt b) = .slice s → m.Cuts s := by
    rintro s ⟨⟩
    exact ⟨Nat.one_pos, Or.inl ⟨b.net, hMem, rfl, hLt, rfl, rfl⟩⟩
  have hBegin : (∀ g ∈ fs.head?, ¬g.Joins (.slice (sliceAt b))) →
      m.Reads (bits ++ [.net id]) (.slice (sliceAt b) :: fs) := fun hApart => h.begin hOne hCuts hApart
  rcases fs with _ | ⟨cs | s, rest⟩
  · have hAdd : addBit m.bitNames [] (.net id) = [.slice (sliceAt b)] := by rw [addBit, hName]
    rw [hAdd]
    exact hBegin (by simp)
  · have hAdd : addBit m.bitNames (.constant cs :: rest) (.net id) =
        .slice (sliceAt b) :: .constant cs :: rest := by rw [addBit, hName]
    rw [hAdd]
    refine hBegin ?_
    rintro g ⟨⟩ hJoins
    exact hJoins
  · have hAdd : addBit m.bitNames (.slice s :: rest) (.net id) =
        if continues s b then .slice { s with width := s.width + 1 } :: rest
        else .slice (sliceAt b) :: .slice s :: rest := by rw [addBit, hName]
    have hContinues : continues s b = true ↔ s.wire = b.net.name ∧ s.offset + s.width = b.position := by
      simp [continues]
    rw [hAdd]
    split
    · next hNext =>
      obtain ⟨hWire, hMeet⟩ := hContinues.mp hNext
      -- the slice below is one of the same net
      have hCut : b.net.Cut s := by
        rcases (h.cuts s (List.mem_cons_self ..)).2 with ⟨n, hn, hCut⟩ | hFree
        · rwa [List.inj_on_of_nodup_map hNames hn hMem (hCut.wire.trans hWire)] at hCut
        · exact absurd hWire.symm (hFree b.net hMem)
      refine h.widen (fun high hHigh => ?_) ?_ fun g => ?_
      · rw [bitsOf?_slice hNames hMem hCut.wire] at hHigh
        rw [bitsOf?_slice hNames hMem (s := { s with width := s.width + 1 }) hCut.wire]
        cases hHigh
        dsimp only
        rw [List.take_add_one, List.getElem?_drop, hMeet, hAt]
        rfl
      · rintro t ⟨⟩
        have hWithin : s.offset + (s.width + 1) ≤ s.wireWidth := by
          rw [hCut.wireWidth]
          omega
        exact ⟨Nat.succ_pos _, Or.inl ⟨b.net, hMem, hCut.wire, hWithin, hCut.wireWidth, hCut.msbFirst⟩⟩
      · cases g <;> exact Iff.rfl
    · next hNext =>
      refine hBegin ?_
      rintro g ⟨⟩ hJoins
      exact hNext (hContinues.mpr hJoins)

/-- **Fragments denote their connection.** If net names are distinct and no net without a name would be
spelled like one, the fragments of a connection expand to its bits. Nets have net numbers, whatever their
size. Slices of a net lie in the net and are described as it is declared, and no fragment continues its
neighbour. -/
theorem fragments_denote (hNames : (m.netnames.map NetName.name).Nodup)
    (hNets : ∀ id, .net id ∈ bits → IsNet id)
    (hFree : ∀ id, .net id ∈ bits → m.Unnamed id → ∀ n ∈ m.netnames, n.name ≠ "$" ++ netText id) :
    m.expand? (m.fragments bits) = some bits ∧
    (∀ s, .slice s ∈ m.fragments bits → ∀ n ∈ m.netnames, n.name = s.wire →
      s.offset + s.width ≤ s.wireWidth ∧ s.wireWidth = n.bits.length ∧ s.msbFirst = n.upto) ∧
    (m.fragments bits).IsChain fun upper lower => ¬lower.Joins upper := by
  have hFrom : ∀ (todo done : List Bit) fs, (∀ id, .net id ∈ todo → .net id ∈ bits) → m.Reads done fs →
      m.Reads (done ++ todo) (todo.foldl (addBit m.bitNames) fs) := by
    intro todo
    induction todo with
    | nil =>
      intro done fs _ h
      rwa [List.append_nil]
    | cons b todo ih =>
      intro done fs hSub h
      have hStep : m.Reads (done ++ [b]) (addBit m.bitNames fs b) := by
        cases b with
        | const level => exact h.addConst level
        | net id =>
          have hId := hSub id (List.mem_cons_self ..)
          cases hName : m.nameOf? id with
          | none => exact h.addAnonymous hName (hNets id hId) (hFree id hId (unnamed_of_nameOf? hName))
          | some b => exact h.addNamed hNames hName
      have hRest := ih _ _ (fun id hMem => hSub id (List.mem_cons_of_mem _ hMem)) hStep
      rwa [List.append_assoc, List.singleton_append] at hRest
  have hReads := hFrom bits [] [] (fun _ h => h) ⟨rfl, by simp, .nil⟩
  refine ⟨hReads.expands, fun s hs n hn hName => ?_, hReads.maximal⟩
  rcases (hReads.cuts s hs).2 with ⟨n', hn', hCut⟩ | hOther
  · cases List.inj_on_of_nodup_map hNames hn' hn (hCut.wire.trans hName.symm)
    exact ⟨hCut.within, hCut.wireWidth, hCut.msbFirst⟩
  · exact absurd hName (hOther n hn)

end Module

/-! ## A connection of all kinds of bits -/

/-- A bus, a wire with two names, and a wire that is declared most significant bit first. -/
def busModule : Module :=
  { name := "m", attributes := [], parameters := [], ports := [], cells := []
    netnames :=
      [⟨"data", [.net 2, .net 3, .net 4, .net 5], false, false⟩, ⟨"u.q", [.net 7], false, false⟩,
        ⟨"q", [.net 7], false, false⟩, ⟨"back", [.net 9, .net 8, .const .zero], false, true⟩]
    blackbox := false }

/-- Two runs of the bus, constants between them, an alias, a net of 81 bits without a name and a run of the
reversed wire. -/
def busBits : List Bit :=
  [.net 2, .net 3, .const .zero, .const .one, .net 5, .net 7, .net (2 ^ 80), .net 9, .net 8]

/-- The large net is shown by its shortest decimal, and all bits are read back. -/
theorem busModule_denotes :
    busModule.fragments busBits =
        [.slice ⟨"back", 3, 2, 0, true⟩, .slice ⟨"$1.2089258196146292e+24", 1, 1, 0, false⟩,
          .slice ⟨"q", 1, 1, 0, false⟩, .slice ⟨"data", 4, 1, 3, false⟩, .constant ['1', '0'],
          .slice ⟨"data", 4, 2, 0, false⟩] ∧
      busModule.expand? (busModule.fragments busBits) = some busBits ∧
      (busModule.fragments busBits).IsChain fun upper lower => ¬lower.Joins upper := by
  have hNames : (busModule.netnames.map NetName.name).Nodup := by decide
  have hNets : ∀ id, .net id ∈ busBits → IsNet id := by
    intro id hId
    have hSmall : id < 2 ^ 53 ∨ id = 2 ^ 80 := by
      simp only [busBits, List.mem_cons, List.not_mem_nil, or_false, Bit.net.injEq, reduceCtorEq,
        false_or] at hId
      omega
    rcases hSmall with hSmall | rfl
    · exact ⟨id, 0, hSmall, by decide, by simp⟩
    · exact ⟨1, 80, by decide, by decide, by simp⟩
  have hFree : ∀ id, .net id ∈ busBits → busModule.Unnamed id →
      ∀ n ∈ busModule.netnames, n.name ≠ "$" ++ netText id := by
    intro id _ _ n hn hName
    have hMark : ∀ n ∈ busModule.netnames, n.name.toList.head? ≠ some '$' := by decide
    refine hMark n hn ?_
    rw [hName, String.toList_append]
    rfl
  obtain ⟨hExpand, -, hMaximal⟩ := Module.fragments_denote hNames hNets hFree
  exact ⟨by decide +kernel, hExpand, hMaximal⟩

end ProbeAtlas
