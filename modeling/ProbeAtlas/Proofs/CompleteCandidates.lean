import Mathlib.Data.List.Count
import ProbeAtlas.Proofs.Enrolment

/-!
# ProbeAtlas — exactly the complete candidates are decoded

Decoding goes through the parameters in order and stops at a key that comes up again or a literal that
cannot be read; keys that are still missing show at the end. `ParamTable.Complete` says what it all amounts
to without an order: for every slot there is one parameter of that name, and its literal can be read.
Parameters without a slot may stand anywhere and come up any number of times.

A table that was decoded holds a value of the right kind under the key of every slot. The keys that a core
or a subsystem is built from are keys of such slots, so building cannot fail.

Main result: `ParamTable.decode?_complete`.
-/

namespace ProbeAtlas

/-- With distinct keys the kind of a key is that of its slot. -/
theorem Slot.kindOf?_eq_some_iff {slots : List Slot} {key : String} {kind : ParamKind}
    (hKeys : (slots.map Slot.key).Nodup) : kindOf? slots key = some kind ↔ ⟨key, kind⟩ ∈ slots := by
  have hReverse : (slots.reverse.map Slot.key).Nodup := by
    rw [List.map_reverse, List.nodup_reverse]
    exact hKeys
  rw [kindOf?, Option.map_eq_some_iff]
  simp only [find?_key_eq_some_iff hReverse, List.mem_reverse]
  constructor
  · rintro ⟨s, ⟨hs, rfl⟩, rfl⟩
    exact hs
  · intro hSlot
    exact ⟨_, ⟨hSlot, rfl⟩, rfl⟩

namespace ParamTable

variable {slots : List Slot} {params : List (String × String)} {t : ParamTable}

/-- For every slot there is one parameter of that name, and its literal reads as the kind of the slot. -/
def Complete (slots : List Slot) (params : List (String × String)) : Prop :=
  ∀ s ∈ slots, (params.map Prod.fst).count s.key = 1 ∧
    ∀ literal, (s.key, literal) ∈ params → (ParamValue.decode? s.kind literal).isSome = true

-- ---------------------------------------------------------------------------
-- What is read
-- ---------------------------------------------------------------------------

section Read

variable (hKeys : (slots.map Slot.key).Nodup)

include hKeys

theorem read?_eq_some_iff {p : String × String} {key : String} {v : ParamValue} :
    read? slots p = some (key, v) ↔ p.1 = key ∧ ∃ s ∈ slots, s.key = key ∧
      ParamValue.decode? s.kind p.2 = some v := by
  simp only [read?, Option.bind_eq_some_iff, Option.map_eq_some_iff, Slot.kindOf?_eq_some_iff hKeys]
  constructor
  · rintro ⟨kind, hSlot, v', hv', h⟩
    cases h
    exact ⟨rfl, _, hSlot, rfl, hv'⟩
  · rintro ⟨rfl, s, hs, hKey, hv⟩
    refine ⟨s.kind, ?_, v, hv, rfl⟩
    rw [← hKey]
    exact hs

theorem readable_iff : Readable slots params ↔
    ∀ s ∈ slots, ∀ literal, (s.key, literal) ∈ params → (ParamValue.decode? s.kind literal).isSome = true := by
  constructor
  · intro h s hs literal hMem
    have hKind := (Slot.kindOf?_eq_some_iff hKeys).mpr hs
    obtain ⟨⟨key, v⟩, hRead⟩ := Option.isSome_iff_exists.mp (h _ hMem (by rw [hKind]; rfl))
    obtain ⟨rfl, s', hs', hKey, hv⟩ := (read?_eq_some_iff hKeys).mp hRead
    rw [← List.inj_on_of_nodup_map hKeys hs' hs hKey, hv]
    rfl
  · intro h p hp hKnown
    obtain ⟨kind, hKind⟩ := Option.isSome_iff_exists.mp hKnown
    have hSlot := (Slot.kindOf?_eq_some_iff hKeys).mp hKind
    obtain ⟨v, hv⟩ := Option.isSome_iff_exists.mp (h _ hSlot p.2 hp)
    rw [(read?_eq_some_iff hKeys).mpr ⟨rfl, _, hSlot, rfl, hv⟩]
    rfl

end Read

/-- If all literals under keys of slots can be read, what is read has just those names that have a slot. -/
theorem Readable.keys (h : Readable slots params) : (params.filterMap (read? slots)).map Prod.fst =
    (params.map Prod.fst).filter fun key => (Slot.kindOf? slots key).isSome := by
  induction params with
  | nil => rfl
  | cons p rest ih =>
    obtain ⟨hFirst, hRest⟩ := List.forall_mem_cons.mp h
    rw [List.filterMap_cons, List.map_cons, List.filter_cons, ← ih hRest]
    cases hKind : Slot.kindOf? slots p.1 with
    | none =>
      have hRead : read? slots p = none := by rw [read?, hKind, Option.bind_none]
      rw [hRead]
      rfl
    | some kind =>
      obtain ⟨e, he⟩ := Option.isSome_iff_exists.mp (hFirst (by rw [hKind]; rfl))
      rw [he]
      dsimp only
      rw [List.map_cons, (read?_eq_some he).1]
      rfl

-- ---------------------------------------------------------------------------
-- Acceptance without an order
-- ---------------------------------------------------------------------------

/-- **Being accepted in order is being complete.** Among the names that have a slot none comes twice iff
each is counted once. -/
theorem accepts_iff (hKeys : (slots.map Slot.key).Nodup) : Accepts slots params ↔ Complete slots params := by
  have hFilter : ∀ s ∈ slots, ((params.map Prod.fst).filter fun key =>
      (Slot.kindOf? slots key).isSome).count s.key = (params.map Prod.fst).count s.key := by
    intro s hs
    refine List.count_filter ?_
    rw [(Slot.kindOf?_eq_some_iff hKeys).mpr hs]
    rfl
  constructor
  · intro h s hs
    refine ⟨?_, (readable_iff hKeys).mp h.readable s hs⟩
    have hCount := List.count_eq_one_of_mem h.distinct (h.complete s hs)
    rwa [h.readable.keys, hFilter s hs] at hCount
  · intro h
    have hReadable := (readable_iff hKeys).mpr fun s hs => (h s hs).2
    have hOnce : ∀ s ∈ slots, ((params.filterMap (read? slots)).map Prod.fst).count s.key = 1 := by
      intro s hs
      rw [hReadable.keys, hFilter s hs, (h s hs).1]
    refine ⟨hReadable, List.nodup_iff_count_le_one.mpr fun key => ?_, fun s hs => ?_⟩
    · by_cases hMem : key ∈ (params.filterMap (read? slots)).map Prod.fst
      · rw [hReadable.keys, List.mem_filter] at hMem
        obtain ⟨kind, hKind⟩ := Option.isSome_iff_exists.mp hMem.2
        exact Nat.le_of_eq (hOnce _ ((Slot.kindOf?_eq_some_iff hKeys).mp hKind))
      · rw [List.count_eq_zero_of_not_mem hMem]
        exact Nat.zero_le 1
    · exact List.count_pos_iff.mp (by rw [hOnce s hs]; exact Nat.zero_lt_one)

theorem isSome_decode?_iff (hKeys : (slots.map Slot.key).Nodup) :
    (decode? slots params).value.isSome = true ↔ Complete slots params := by
  rw [Option.isSome_iff_exists, ← accepts_iff hKeys]
  simp only [decode?_eq_some_iff, exists_and_left, exists_eq, and_true]

-- ---------------------------------------------------------------------------
-- What the table holds
-- ---------------------------------------------------------------------------

section Holds

variable (hKeys : (slots.map Slot.key).Nodup) (h : (decode? slots params).value = some t)

include hKeys h

/-- The table has one value under the key of every slot and no other. -/
theorem keys_of_decode? : (t.values.map Prod.fst).Perm (slots.map Slot.key) := by
  obtain ⟨hAccepts, rfl⟩ := decode?_eq_some_iff.mp h
  refine (List.perm_ext_iff_of_nodup hAccepts.distinct hKeys).mpr fun key => ⟨fun hKey => ?_, ?_⟩
  · obtain ⟨⟨_, v⟩, he, rfl⟩ := List.mem_map.mp hKey
    obtain ⟨p, -, hp⟩ := List.mem_filterMap.mp he
    obtain ⟨-, s, hs, hSlot, -⟩ := (read?_eq_some_iff hKeys).mp hp
    exact hSlot ▸ List.mem_map_of_mem hs
  · intro hKey
    obtain ⟨s, hs, rfl⟩ := List.mem_map.mp hKey
    exact hAccepts.complete s hs

/-- The value under a key is what the literal of that name reads as. -/
theorem get?_of_decode? {key : String} {v : ParamValue} : t.get? key = some v ↔
    ∃ s ∈ slots, s.key = key ∧ ∃ literal, (key, literal) ∈ params ∧
      ParamValue.decode? s.kind literal = some v := by
  obtain ⟨hAccepts, rfl⟩ := decode?_eq_some_iff.mp h
  rw [get?, Entries.get?_eq_some_iff hAccepts.distinct, List.mem_filterMap]
  simp only [read?_eq_some_iff hKeys]
  constructor
  · rintro ⟨⟨_, literal⟩, hp, rfl, s, hs, hSlot, hv⟩
    exact ⟨s, hs, hSlot, literal, hp, hv⟩
  · rintro ⟨s, hs, hSlot, literal, hp, hv⟩
    exact ⟨_, hp, rfl, s, hs, hSlot, hv⟩

end Holds

theorem isSome_decode?_of_perm {params' : List (String × String)} (hPerm : params.Perm params')
    (h : (decode? slots params).value.isSome = true) : (decode? slots params').value.isSome = true := by
  obtain ⟨t, ht⟩ := Option.isSome_iff_exists.mp h
  obtain ⟨t', ht', -⟩ := decode?_perm hPerm ht
  rw [ht']
  rfl

/-- **Exactly the complete candidates are decoded.** For slots with distinct keys, the table then has the
values that the literals read as, under the keys of the slots and no others, and it is the same table for
parameters in another order. A table with the slots of a core or of a subsystem has all that building asks
for. -/
theorem decode?_complete :
    (∀ (slots : List Slot) (params : List (String × String)), (slots.map Slot.key).Nodup →
      ((decode? slots params).value.isSome = true ↔ Complete slots params) ∧
      (∀ t, (decode? slots params).value = some t →
        t.slots = slots ∧ (t.values.map Prod.fst).Perm (slots.map Slot.key) ∧
        ∀ key v, t.get? key = some v ↔ ∃ s ∈ slots, s.key = key ∧ ∃ literal, (key, literal) ∈ params ∧
          ParamValue.decode? s.kind literal = some v) ∧
      ∀ params', params.Perm params' →
        ((decode? slots params').value.isSome = true ↔ (decode? slots params).value.isSome = true) ∧
        ∀ t t', (decode? slots params).value = some t → (decode? slots params').value = some t' →
          t.Same t') ∧
    (∀ params t, (decode? Slot.coreSlots params).value = some t →
      ∀ name, ∃ c, Core.ofTable name t = .ok c) ∧
    ∀ params t, (decode? Slot.subsystemSlots params).value = some t →
      (∃ shape, Subsystem.Shape.ofTable t = .ok shape) ∧
      ∀ name shape mode, ∃ s, Subsystem.ofShape name t shape mode = .ok s := by
  refine ⟨fun slots params hKeys => ⟨isSome_decode?_iff hKeys, fun t h => ?_, fun params' hPerm => ?_⟩,
    fun params t h name => ?_, fun params t h => ?_⟩
  · exact ⟨slots_of_decode? h, keys_of_decode? hKeys h, fun key v => get?_of_decode? hKeys h⟩
  · refine ⟨⟨isSome_decode?_of_perm hPerm.symm, isSome_decode?_of_perm hPerm⟩, fun t t' ht ht' => ?_⟩
    obtain ⟨found, hFound, hSame⟩ := decode?_perm hPerm ht
    rw [ht'] at hFound
    cases hFound
    exact hSame
  · exact Core.ofTable_total (typed_of_decode? (by decide) h) (slots_of_decode? h) name
  · have hTyped := typed_of_decode? (by decide) h
    have hSlots := slots_of_decode? h
    exact ⟨Subsystem.Shape.ofTable_total hTyped hSlots, Subsystem.ofShape_total hTyped hSlots⟩

end ParamTable

/-- The parameters of a core in no particular order. Some names have no slot, and one of these comes up twice. -/
def looseParams : List (String × String) :=
  [("LABEL", "\"spare\""), ("INDEX", "0"), ("MEM_DEPTH", "7'1000000"), ("IP_TYPE", "\"OCLA\""),
    ("NO_OF_PROBES", "6"), ("LABEL", "?"), ("IP_ID", "4660"), ("AXI_DATA_WIDTH", "32"), ("IP_VERSION", "1"),
    ("AXI_ADDR_WIDTH", "32"), ("Index", "1"), ("NO_OF_TRIGGER_INPUTS", "1")]

/-- The loose parameters are complete. They are not with an index too many, of whatever value, or with an
index that is no number; and from behind they give the same depth of memory. -/
theorem looseParams_complete :
    (Slot.coreSlots.map Slot.key).Nodup ∧ ParamTable.Complete Slot.coreSlots looseParams ∧
    ¬ ParamTable.Complete Slot.coreSlots (("INDEX", "0") :: looseParams) ∧
    ¬ ParamTable.Complete Slot.coreSlots (("INDEX", "\"0\"") :: looseParams.filter fun p => p.1 ≠ "INDEX") ∧
    ∃ t, (ParamTable.decode? Slot.coreSlots looseParams.reverse).value = some t ∧
      t.get? "MEM_DEPTH" = some (.word32 64) ∧ ∃ c, Core.ofTable "ocla" t = .ok c := by
  have hKeys : (Slot.coreSlots.map Slot.key).Nodup := by decide
  have hComplete := fun params => ParamTable.decode?_complete.1 Slot.coreSlots params hKeys
  have hSome : (ParamTable.decode? Slot.coreSlots looseParams).value.isSome = true := by decide +kernel
  have hTwice : ¬ (ParamTable.decode? Slot.coreSlots
      (("INDEX", "0") :: looseParams)).value.isSome = true := by
    decide +kernel
  have hText : ¬ (ParamTable.decode? Slot.coreSlots
      (("INDEX", "\"0\"") :: looseParams.filter fun p => p.1 ≠ "INDEX")).value.isSome = true := by
    decide +kernel
  refine ⟨hKeys, (hComplete _).1.mp hSome, fun h => hTwice ((hComplete _).1.mpr h),
    fun h => hText ((hComplete _).1.mpr h), ?_⟩
  obtain ⟨t, ht⟩ := Option.isSome_iff_exists.mp
    (((hComplete looseParams).2.2 _ (List.reverse_perm _).symm).1.mpr hSome)
  refine ⟨t, ht, ((hComplete _).2.1 t ht).2.2 _ _ |>.mpr ?_, ParamTable.decode?_complete.2.1 _ t ht _⟩
  exact ⟨⟨"MEM_DEPTH", .word32⟩, by decide, rfl, "7'1000000", by decide, by decide +kernel⟩

end ProbeAtlas
