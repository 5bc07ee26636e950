import Mathlib.Data.List.Nodup
import ProbeAtlas.Proofs.CutAgreement
import ProbeAtlas.Proofs.NetNumeral

/-!
# ProbeAtlas — names of signals are unambiguous

Names of signals carry numbers: a slice is named by the indices of its first and last bit, and a signal of one
of several buses by the number of the bus. The numbers are printed without leading zeros or fixed width, so what
keeps two names apart is that a number contains none of the marks around it. A range is cut at its colon, and the
number of a bus is what stands behind the last underscore.

A slice has three spellings: the whole wire without a range, one bit by one index, several bits by two. They never
meet. The full name leaves out the range of a whole wire, the short one only if the wire has a single bit, and then
there is no other slice of it.

Main results:

* `Slice.names_determine` — names determine the slice of a wire, and what the printed indices stand for.
* `BusKind.fragments_unambiguous` — the wires of some buses have the width of the buses and names of their own.
-/

namespace ProbeAtlas

-- ---------------------------------------------------------------------------
-- Numbers in a text
-- ---------------------------------------------------------------------------

theorem notMem_toString {c : Char} (h : c.isDigit = false) (n : Nat) : c ∉ (toString n).toList := by
  rw [Nat.toString_eq_ofList_toDigits, String.toList_ofList]
  intro hc
  have hDigit : c.isDigit = true := isDigit_toDigits n c hc
  rw [h] at hDigit
  cases hDigit

/-- Numbers that are joined by colons are found again between the colons. -/
theorem splitOn_joined {numbers : List Nat} (h : numbers ≠ []) :
    (":".intercalate (numbers.map toString)).toList.splitOn ':' =
      numbers.map fun n => (toString n).toList := by
  rw [String.toList_intercalate, List.map_map]
  refine List.splitOn_intercalate ':' (fun digits hDigits => ?_) (by simpa using h)
  obtain ⟨n, -, rfl⟩ := List.mem_map.mp hDigits
  exact notMem_toString (by decide) n

theorem joined_injective {is js : List Nat} (hi : is ≠ []) (hj : js ≠ [])
    (h : ":".intercalate (is.map toString) = ":".intercalate (js.map toString)) : is = js := by
  have hDigits : is.map (fun n => (toString n).toList) = js.map fun n => (toString n).toList := by
    rw [← splitOn_joined hi, ← splitOn_joined hj, h]
  have hInjective : Function.Injective fun n : Nat => (toString n).toList := fun i j hEq =>
    toString_injective (String.toList_injective hEq)
  exact hInjective.list_map hDigits

-- ---------------------------------------------------------------------------
-- Indices
-- ---------------------------------------------------------------------------

namespace Slice

variable {s t : Slice}

/-- The slice has at least one bit and lies in its wire. -/
structure Within (s : Slice) : Prop where
  pos : 1 ≤ s.width
  le  : s.offset + s.width ≤ s.wireWidth

/-- The slices are of one wire, declared in one way. -/
structure SameWire (s t : Slice) : Prop where
  wire      : s.wire = t.wire
  wireWidth : s.wireWidth = t.wireWidth
  msbFirst  : s.msbFirst = t.msbFirst

/-- The index of a position that lies in the wire. -/
def indexAt (s : Slice) (position : Nat) : Nat :=
  if s.msbFirst then s.wireWidth - 1 - position else position

theorem index_eq_indexAt {position : Nat} (h : position < s.wireWidth) :
    s.index position = (s.indexAt position : Int) := by
  unfold index indexAt
  split <;> omega

theorem indexAt_lt {position : Nat} (h : position < s.wireWidth) : s.indexAt position < s.wireWidth := by
  unfold indexAt
  split <;> omega

/-- Positions of a wire have indices of their own, reflected or not. -/
theorem indexAt_inj {p q : Nat} (hp : p < s.wireWidth) (hq : q < s.wireWidth) (h : s.indexAt p = s.indexAt q) :
    p = q := by
  unfold indexAt at h
  split at h <;> omega

/-- The positions whose indices the range shows, most significant first. -/
def shown (s : Slice) : List Nat :=
  if s.width = 1 then [s.last] else [s.last, s.offset]

theorem shown_ne_nil (s : Slice) : s.shown ≠ [] := by
  unfold shown
  split <;> simp

theorem head?_shown (s : Slice) : s.shown.head? = some s.last := by
  unfold shown
  split <;> rfl

theorem Within.lt_of_mem_shown (h : s.Within) {p : Nat} (hp : p ∈ s.shown) : p < s.wireWidth := by
  have hPos := h.pos
  have hLe := h.le
  unfold shown last at hp
  split at hp
  · rw [List.mem_singleton] at hp
    omega
  · rw [List.mem_pair] at hp
    omega

/-- **The range of a slice** shows the indices between brackets. -/
theorem Within.range_eq (h : s.Within) :
    s.range = "[" ++ ":".intercalate ((s.shown.map s.indexAt).map toString) ++ "]" := by
  have hIndex : ∀ p ∈ s.shown, s.index p = (s.indexAt p : Int) := fun p hp =>
    index_eq_indexAt (h.lt_of_mem_shown hp)
  unfold range shown at *
  by_cases hOne : s.width = 1
  · have hLast : s.last = s.offset := by
      unfold last
      omega
    rw [if_pos hOne] at hIndex ⊢
    rw [if_pos hOne, ← hLast, hIndex s.last (by simp)]
    rfl
  · rw [if_neg hOne] at hIndex ⊢
    rw [if_neg hOne, hIndex s.last (by simp), hIndex s.offset (by simp)]
    rfl

theorem SameWire.indexAt_eq (h : s.SameWire t) : t.indexAt = s.indexAt := by
  funext position
  rw [indexAt, indexAt, h.wireWidth, h.msbFirst]

/-- The indices that are shown tell the slices of a wire apart. One index is the only position of a slice of one
bit, and two are the ends of a longer one. -/
theorem SameWire.eq_of_indices (h : s.SameWire t) (hs : s.Within) (ht : t.Within)
    (hIndices : s.shown.map s.indexAt = t.shown.map t.indexAt) : s.offset = t.offset ∧ s.width = t.width := by
  rw [h.indexAt_eq] at hIndices
  have hPositions : ∀ p ∈ s.shown, ∀ q ∈ t.shown, s.indexAt p = s.indexAt q → p = q := by
    intro p hp q hq
    have hq' := ht.lt_of_mem_shown hq
    rw [← h.wireWidth] at hq'
    exact indexAt_inj (hs.lt_of_mem_shown hp) hq'
  have hPos := hs.pos
  have hPos' := ht.pos
  unfold shown at hIndices hPositions
  by_cases hOne : s.width = 1 <;> by_cases hOne' : t.width = 1
  · rw [if_pos hOne, if_pos hOne'] at hIndices hPositions
    have hLast := hPositions s.last (by simp) t.last (by simp) (List.singleton_inj.mp hIndices)
    unfold last at hLast
    omega
  · simp [hOne, hOne'] at hIndices
  · simp [hOne, hOne'] at hIndices
  · rw [if_neg hOne, if_neg hOne'] at hIndices hPositions
    obtain ⟨hFirst, hSecond⟩ := List.cons.inj hIndices
    have hLast := hPositions s.last (by simp) t.last (by simp) hFirst
    have hOffset := hPositions s.offset (by simp) t.offset (by simp) (List.singleton_inj.mp hSecond)
    unfold last at hLast
    omega

/-- **Ranges tell the slices of a wire apart.** -/
theorem SameWire.eq_of_range (h : s.SameWire t) (hs : s.Within) (ht : t.Within) (hRange : s.range = t.range) :
    s.offset = t.offset ∧ s.width = t.width := by
  rw [hs.range_eq, ht.range_eq, String.append_left_inj, String.append_right_inj] at hRange
  refine h.eq_of_indices hs ht (joined_injective ?_ ?_ hRange)
  · simpa using s.shown_ne_nil
  · simpa using t.shown_ne_nil

-- ---------------------------------------------------------------------------
-- Names of slices
-- ---------------------------------------------------------------------------

theorem isWhole_iff : s.isWhole = true ↔ s.width = s.wireWidth ∧ s.offset = 0 := by
  rw [isWhole, Bool.and_eq_true, beq_iff_eq, beq_iff_eq]

/-- The short name leaves out the range where there is no other slice. -/
theorem Within.showsIndex_iff (h : s.Within) : s.showsIndex = true ↔ s.wireWidth ≠ 1 := by
  have hPos := h.pos
  have hLe := h.le
  unfold showsIndex
  rw [Bool.not_eq_true', Bool.and_eq_false_iff, ← Bool.not_eq_true, isWhole_iff, beq_eq_false_iff_ne]
  omega

theorem SameWire.eq_of_fullName (h : s.SameWire t) (hs : s.Within) (ht : t.Within)
    (hName : s.fullName = t.fullName) : s.offset = t.offset ∧ s.width = t.width := by
  -- a name with a range is longer than the wire
  have hLonger : ∀ range : String, t.wire ≠ t.wire ++ " " ++ range := by
    intro range hEq
    have hLength := congrArg (fun name : String => name.toList.length) hEq
    simp only [String.toList_append, List.length_append] at hLength
    have hBlank : " ".toList.length = 1 := rfl
    omega
  unfold fullName at hName
  rw [h.wire] at hName
  by_cases hWhole : s.isWhole = true <;> by_cases hWhole' : t.isWhole = true
  · rw [isWhole_iff] at hWhole hWhole'
    have hWidth := h.wireWidth
    omega
  · rw [if_pos hWhole, if_neg hWhole'] at hName
    exact absurd hName (hLonger t.range)
  · rw [if_neg hWhole, if_pos hWhole'] at hName
    exact absurd hName.symm (hLonger s.range)
  · rw [if_neg hWhole, if_neg hWhole'] at hName
    exact h.eq_of_range hs ht ((String.append_right_inj _).mp hName)

theorem SameWire.eq_of_signalName (h : s.SameWire t) (hs : s.Within) (ht : t.Within)
    (hName : (Fragment.slice s).signalName = (Fragment.slice t).signalName) :
    s.offset = t.offset ∧ s.width = t.width := by
  by_cases hSingle : s.wireWidth = 1
  · have hPos := hs.pos
    have hLe := hs.le
    have hPos' := ht.pos
    have hLe' := ht.le
    have hWidth := h.wireWidth
    omega
  · have hShows := hs.showsIndex_iff.mpr hSingle
    have hShows' := ht.showsIndex_iff.mpr (h.wireWidth ▸ hSingle)
    rw [Fragment.signalName, Fragment.signalName, if_pos hShows, if_pos hShows', h.wire,
      String.append_right_inj] at hName
    exact h.eq_of_range hs ht hName

/-- **Printed names determine the slice.** Slices of one wire that have the same full name, or are reported under
the same short name, have the same bits. All indices in a range are indices of the wire, and the first one is that
of the most significant bit of the slice; it is reflected if the wire is declared most significant bit first. -/
theorem names_determine (h : s.SameWire t) (hs : s.Within) (ht : t.Within) :
    ((Fragment.slice s).fullName = (Fragment.slice t).fullName → s.offset = t.offset ∧ s.width = t.width) ∧
    ((Fragment.slice s).signalName = (Fragment.slice t).signalName → s.offset = t.offset ∧ s.width = t.width) ∧
    ∃ first rest, s.range = "[" ++ ":".intercalate ((first :: rest).map toString) ++ "]" ∧
      (∀ i ∈ first :: rest, i < s.wireWidth) ∧
      first = if s.msbFirst then s.wireWidth - 1 - (s.offset + s.width - 1) else s.offset + s.width - 1 := by
  refine ⟨h.eq_of_fullName hs ht, h.eq_of_signalName hs ht, ?_⟩
  obtain ⟨positions, hShown⟩ := List.head?_eq_some_iff.mp s.head?_shown
  refine ⟨s.indexAt s.last, positions.map s.indexAt, ?_, ?_, rfl⟩
  · rw [hs.range_eq, hShown, List.map_cons]
  · rw [← List.map_cons, ← hShown, List.forall_mem_map]
    exact fun p hp => indexAt_lt (hs.lt_of_mem_shown hp)

/-- Some bits of a wire of eight bits that is declared most significant bit first. -/
def ofByte (offset width : Nat) : Slice :=
  ⟨"u.data", 8, width, offset, true⟩

/-- Slices that overlap have names of their own. The range of the first one begins with the reflected index of
position 4. -/
theorem ofByte_determined : (ofByte 2 3).SameWire (ofByte 3 3) ∧ (ofByte 2 3).Within ∧ (ofByte 3 3).Within ∧
    (Fragment.slice (ofByte 2 3)).fullName ≠ (Fragment.slice (ofByte 3 3)).fullName ∧
    (Fragment.slice (ofByte 2 3)).signalName ≠ (Fragment.slice (ofByte 3 3)).signalName ∧
    ∃ first rest, (ofByte 2 3).range = "[" ++ ":".intercalate ((first :: rest).map toString) ++ "]" ∧
      (∀ i ∈ first :: rest, i < 8) ∧ first = 8 - 1 - 4 := by
  have hWire : (ofByte 2 3).SameWire (ofByte 3 3) := ⟨rfl, rfl, rfl⟩
  have hWithin : (ofByte 2 3).Within := ⟨by decide, by decide⟩
  have hWithin' : (ofByte 3 3).Within := ⟨by decide, by decide⟩
  have hOffset : (ofByte 2 3).offset ≠ (ofByte 3 3).offset := by decide
  obtain ⟨hFull, hShort, hRange⟩ := names_determine hWire hWithin hWithin'
  exact ⟨hWire, hWithin, hWithin', fun hName => hOffset (hFull hName).1, fun hName => hOffset (hShort hName).1,
    hRange⟩

/-- The three spellings of a range, on a wire that is reflected. -/
example : [ofByte 2 3, ofByte 7 1, ofByte 0 8].map fullName = ["u.data [3:5]", "u.data [0]", "u.data"] := by
  decide +kernel

end Slice

-- ---------------------------------------------------------------------------
-- Names of bus signals
-- ---------------------------------------------------------------------------

/-- Equal texts are equal before and behind their last marks. -/
theorem append_mark_inj {mark : Char} {a b x y : List Char} (hx : mark ∉ x) (hy : mark ∉ y)
    (h : a ++ mark :: x = b ++ mark :: y) : a = b ∧ x = y := by
  -- if one part in front were longer, the mark behind it would stand in the other's rest
  rcases List.append_eq_append_iff.mp h with ⟨more, rfl, hMore⟩ | ⟨more, rfl, hMore⟩
  · rcases List.cons_eq_append_iff.mp hMore with ⟨rfl, hRest⟩ | ⟨rest, rfl, rfl⟩
    · exact ⟨(List.append_nil a).symm, (List.cons.inj hRest).2.symm⟩
    · exact absurd (by simp) hx
  · rcases List.cons_eq_append_iff.mp hMore with ⟨rfl, hRest⟩ | ⟨rest, rfl, rfl⟩
    · exact ⟨List.append_nil b, (List.cons.inj hRest).2⟩
    · exact absurd (by simp) hy

namespace BusKind

/-- With several buses, a name tells the signal and the bus. -/
theorem eq_of_signalName {buses i j : Nat} (h : 1 < buses) {a b : String}
    (hName : signalName buses i a = signalName buses j b) : a = b ∧ i = j := by
  rw [signalName, signalName, if_pos h, if_pos h] at hName
  have hText : a.toList ++ '_' :: (toString i).toList = b.toList ++ '_' :: (toString j).toList := by
    have hList : (a ++ "_" ++ toString i).toList = (b ++ "_" ++ toString j).toList := congrArg String.toList hName
    simpa [String.toList_append] using hList
  obtain ⟨hSignal, hBus⟩ := append_mark_inj (notMem_toString (by decide) i) (notMem_toString (by decide) j) hText
  exact ⟨String.toList_injective hSignal, toString_injective (String.toList_injective hBus)⟩

/-- On one bus, a name tells the signal. -/
theorem signalName_injective (buses bus : Nat) : Function.Injective (signalName buses bus) := by
  intro a b hName
  by_cases hSeveral : 1 < buses
  · exact (eq_of_signalName hSeveral hName).1
  · rwa [signalName, signalName, if_neg hSeveral, if_neg hSeveral] at hName

theorem nodup_signals (kind : BusKind) : (kind.signals.map Prod.fst).Nodup := by
  cases kind <;> decide

theorem signals_pos (kind : BusKind) : ∀ signal ∈ kind.signals, 0 < signal.2 := by
  cases kind <;> decide

/-- The wires of the bus with the given number. -/
def busSlices (kind : BusKind) (buses bus : Nat) : List Slice :=
  kind.signals.map fun signal => ⟨signalName buses bus signal.1, signal.2, signal.2, 0, false⟩

theorem fragments_eq_busSlices (kind : BusKind) (buses : Nat) : kind.fragments buses =
    ((List.range buses).flatMap fun i => kind.busSlices buses (i + 1)).map .slice := by
  rw [fragments, List.map_flatMap]
  refine List.flatMap_congr fun i _ => ?_
  rw [busSlices, List.map_map]
  rfl

theorem wires_busSlices (kind : BusKind) (buses bus : Nat) :
    (kind.busSlices buses bus).map Slice.wire = (kind.signals.map Prod.fst).map (signalName buses bus) := by
  rw [busSlices, List.map_map, List.map_map]
  rfl

/-- **No two wires of some buses have one name.** -/
theorem nodup_wires (kind : BusKind) (buses : Nat) :
    (((List.range buses).flatMap fun i => kind.busSlices buses (i + 1)).map Slice.wire).Nodup := by
  rw [List.map_flatMap, List.nodup_flatMap]
  constructor
  · intro i _
    rw [wires_busSlices]
    exact kind.nodup_signals.map (signalName_injective buses (i + 1))
  · refine List.pairwise_lt_range.imp_of_mem fun {i j} _ hj hLess => ?_
    show ((kind.busSlices buses (i + 1)).map Slice.wire).Disjoint ((kind.busSlices buses (j + 1)).map Slice.wire)
    rw [wires_busSlices, wires_busSlices]
    intro wire hWire hWire'
    -- two different buses are at least two buses, so their numbers are in the names
    have hSeveral : 1 < buses := by
      have hBound := List.mem_range.mp hj
      omega
    obtain ⟨a, -, rfl⟩ := List.mem_map.mp hWire
    obtain ⟨b, -, hName⟩ := List.mem_map.mp hWire'
    have hSame := (eq_of_signalName hSeveral hName).2
    omega

/-- **The signal of a bridge core is as wide as its buses, and unambiguous.** For every number of buses there is a
fragment for each signal of each bus, the fragments add up to the width that the core is checked against, each is
the whole of its wire, and no two wires have one name. -/
theorem fragments_unambiguous (kind : BusKind) (buses : Nat) :
    (kind.fragments buses).length = buses * kind.signals.length ∧
    Fragment.totalWidth (kind.fragments buses) = buses * kind.width ∧
    ∃ slices : List Slice, kind.fragments buses = slices.map .slice ∧
      (∀ s ∈ slices, 0 < s.width ∧ s.width = s.wireWidth ∧ s.offset = 0) ∧
      (slices.map Slice.wire).Nodup := by
  refine ⟨?_, kind.totalWidth_fragments buses, _, kind.fragments_eq_busSlices buses, ?_, kind.nodup_wires buses⟩
  · rw [fragments, List.length_flatMap]
    simp
  · intro s hs
    obtain ⟨i, -, hs⟩ := List.mem_flatMap.mp hs
    obtain ⟨signal, hSignal, rfl⟩ := List.mem_map.mp hs
    exact ⟨kind.signals_pos signal hSignal, rfl, rfl⟩

/-- The sizes of the two tables of signals. -/
example : (full.signals.length, full.width) = (37, 250) ∧ (lite.signals.length, lite.width) = (19, 152) := by
  decide

end BusKind

end ProbeAtlas
