import ProbeAtlas.Proofs.Census

/-!
# ProbeAtlas — what decoding a candidate takes

Parameters are assigned one after another, and the first one that cannot be assigned ends decoding.
Whether there is such a parameter does not depend on the order: a candidate is decoded iff every literal
under the key of a slot can be read, no such key is there twice, and every slot gets a value. The table
then holds the values that were read.

Every slot of a decoded table holds a value of the slot's kind, so a look-up under the key of a slot
cannot fail. And tables decoded from the same parameters in another order hold the same.

Main results:

* `ParamTable.decode?_eq_some_iff` — which candidates are decoded, and into which table.
* `ParamTable.Typed` — the look-ups that cannot fail.
* `ParamTable.decode?_perm` — the order of the parameters is of no account.
-/

namespace ProbeAtlas

-- ---------------------------------------------------------------------------
-- Assigning parameters
-- ---------------------------------------------------------------------------

/-- The kind that a value is of. -/
def ParamValue.kind : ParamValue → ParamKind
  | .word32 _ => .word32
  | .word64 _ => .word64
  | .text _ => .text

theorem ParamValue.kind_of_decode? {kind : ParamKind} {literal : String} {v : ParamValue}
    (h : decode? kind literal = some v) : v.kind = kind := by
  cases kind <;> obtain ⟨_, -, rfl⟩ := Option.map_eq_some_iff.mp h <;> rfl

namespace ParamTable

variable {slots : List Slot} {params : List (String × String)} {t : ParamTable}

/-- What a parameter assigns: nothing if its name has no slot or its literal cannot be read. -/
def read? (slots : List Slot) (p : String × String) : Option (String × ParamValue) :=
  (Slot.kindOf? slots p.1).bind fun kind => (ParamValue.decode? kind p.2).map fun v => (p.1, v)

theorem read?_eq_some {p : String × String} {e : String × ParamValue} (h : read? slots p = some e) :
    e.1 = p.1 ∧ Slot.kindOf? slots e.1 = some e.2.kind := by
  obtain ⟨kind, hKind, h⟩ := Option.bind_eq_some_iff.mp h
  obtain ⟨v, hv, rfl⟩ := Option.map_eq_some_iff.mp h
  exact ⟨rfl, by rw [ParamValue.kind_of_decode? hv]; exact hKind⟩

/-- Every literal under the key of a slot can be read. -/
def Readable (slots : List Slot) (params : List (String × String)) : Prop :=
  ∀ p ∈ params, (Slot.kindOf? slots p.1).isSome = true → (read? slots p).isSome = true

/-- **Assigning ends with the values read, if all can be read and no key comes up twice.** -/
theorem assign_eq_some_iff {values values' : List (String × ParamValue)}
    (hNodup : (values.map Prod.fst).Nodup) :
    (assign slots params values).value = some values' ↔
      Readable slots params ∧ values' = values ++ params.filterMap (read? slots) ∧
        (values'.map Prod.fst).Nodup := by
  unfold Readable
  induction params generalizing values with
  | nil =>
    rw [assign, Logged.value_pure, List.filterMap_nil, List.append_nil]
    constructor
    · intro h
      cases h
      exact ⟨by simp, rfl, hNodup⟩
    · rintro ⟨-, rfl, -⟩
      rfl
  | cons p rest ih =>
    obtain ⟨name, literal⟩ := p
    rw [assign, List.forall_mem_cons, List.filterMap_cons]
    cases hKind : Slot.kindOf? slots name with
    | none =>
      have hRead : read? slots (name, literal) = none := by simp [read?, hKind]
      simp [hRead, ih hNodup]
    | some kind =>
      dsimp only
      by_cases hKnown : (Entries.get? values name).isSome = true
      · -- the key is there already, and would be there twice
        rw [if_pos hKnown]
        have hMem := Entries.get?_isSome_iff.mp hKnown
        simp only [Logged.value_bind, Logged.value_pure, reduceCtorEq, false_iff]
        rintro ⟨⟨hFirst, -⟩, rfl, hTwice⟩
        obtain ⟨e, he⟩ := Option.isSome_iff_exists.mp (hFirst rfl)
        rw [he, List.map_append, List.map_cons, (read?_eq_some he).1] at hTwice
        exact (List.nodup_append.mp hTwice).2.2 name hMem name (List.mem_cons_self ..) rfl
      · rw [if_neg hKnown]
        cases hDecode : ParamValue.decode? kind literal with
        | none =>
          have hRead : read? slots (name, literal) = none := by simp [read?, hKind, hDecode]
          simp [hRead]
        | some v =>
          have hRead : read? slots (name, literal) = some (name, v) := by
            simp [read?, hKind, hDecode]
          have hNodup' : ((values ++ [(name, v)]).map Prod.fst).Nodup := by
            rw [List.map_append]
            refine List.nodup_append_comm.mp (List.nodup_cons.mpr ⟨?_, hNodup⟩)
            exact fun hMem => hKnown (Entries.get?_isSome_iff.mpr hMem)
          simp [hRead, ih hNodup']

/-- The candidate has, for every slot, one parameter that can be read, and none that cannot. -/
structure Accepts (slots : List Slot) (params : List (String × String)) : Prop where
  readable : Readable slots params
  distinct : ((params.filterMap (read? slots)).map Prod.fst).Nodup
  complete : ∀ s ∈ slots, s.key ∈ (params.filterMap (read? slots)).map Prod.fst

theorem missing_isEmpty_iff {values : List (String × ParamValue)} :
    (missing slots values).isEmpty = true ↔ ∀ s ∈ slots, s.key ∈ values.map Prod.fst := by
  unfold missing
  rw [List.isEmpty_map, List.isEmpty_iff, List.filter_eq_nil_iff]
  refine forall₂_congr fun s _ => ?_
  rw [← Entries.get?_isSome_iff]
  cases Entries.get? values s.key <;> simp

/-- **A candidate is decoded iff it is accepted, and into what was read.** -/
theorem decode?_eq_some_iff :
    (decode? slots params).value = some t ↔
      Accepts slots params ∧ t = ⟨slots, params.filterMap (read? slots)⟩ := by
  have hAssign : ∀ values', (assign slots params []).value = some values' ↔
      Readable slots params ∧ values' = params.filterMap (read? slots) ∧
        (values'.map Prod.fst).Nodup := fun values' => assign_eq_some_iff List.nodup_nil
  unfold decode?
  rw [Logged.value_bind]
  constructor
  · intro h
    split at h
    · cases h
    · next values hValues =>
      obtain ⟨hReadable, rfl, hNodup⟩ := (hAssign values).mp hValues
      rw [Logged.value_bind, Logged.value_pure] at h
      split at h
      · next hComplete =>
        cases h
        exact ⟨⟨hReadable, hNodup, missing_isEmpty_iff.mp hComplete⟩, rfl⟩
      · cases h
  · rintro ⟨⟨hReadable, hDistinct, hComplete⟩, rfl⟩
    rw [(hAssign _).mpr ⟨hReadable, rfl, hDistinct⟩]
    exact if_pos (missing_isEmpty_iff.mpr hComplete)

-- ---------------------------------------------------------------------------
-- Look-ups that cannot fail
-- ---------------------------------------------------------------------------

/-- Every slot holds a value of the slot's kind. -/
def Typed (t : ParamTable) : Prop :=
  ∀ s ∈ t.slots, ∃ v, t.get? s.key = some v ∧ v.kind = s.kind

/-- A decoded table is typed if no two of its slots disagree about a key. -/
theorem typed_of_decode? (hKinds : ∀ s ∈ slots, Slot.kindOf? slots s.key = some s.kind)
    (h : (decode? slots params).value = some t) : t.Typed := by
  obtain ⟨hAccepts, rfl⟩ := decode?_eq_some_iff.mp h
  intro s hs
  obtain ⟨v, hv⟩ := Option.isSome_iff_exists.mp (Entries.get?_isSome_iff.mpr (hAccepts.complete s hs))
  obtain ⟨p, -, hp⟩ := List.mem_filterMap.mp (Entries.mem_of_get? hv)
  have hKind := (read?_eq_some hp).2
  rw [hKinds s hs] at hKind
  exact ⟨v, hv, (Option.some.inj hKind).symm⟩

namespace Typed

variable (h : t.Typed) (key : String)

include h

theorem word32 (hSlot : ⟨key, .word32⟩ ∈ t.slots) : ∃ n, t.word32 key = .ok n := by
  obtain ⟨v, hv, hKind⟩ := h _ hSlot
  cases v with
  | word32 n => exact ⟨n, word32_eq_ok.mpr hv⟩
  | word64 n => cases hKind
  | text s => cases hKind

theorem word64 (hSlot : ⟨key, .word64⟩ ∈ t.slots) : ∃ n, t.word64 key = .ok n := by
  obtain ⟨v, hv, hKind⟩ := h _ hSlot
  cases v with
  | word32 n => cases hKind
  | word64 n => exact ⟨n, word64_eq_ok.mpr hv⟩
  | text s => cases hKind

theorem text (hSlot : ⟨key, .text⟩ ∈ t.slots) : ∃ s, t.text key = .ok s := by
  obtain ⟨v, hv, hKind⟩ := h _ hSlot
  cases v with
  | word32 n => cases hKind
  | word64 n => cases hKind
  | text s => exact ⟨s, text_eq_ok.mpr hv⟩

end Typed

-- ---------------------------------------------------------------------------
-- The order of the parameters
-- ---------------------------------------------------------------------------

/-- The tables have the same slots and hold the same values, stored in whatever order. -/
structure Same (t t' : ParamTable) : Prop where
  slots : t'.slots = t.slots
  get?  : ∀ key, t'.get? key = t.get? key

theorem Accepts.perm {params' : List (String × String)} (h : Accepts slots params)
    (hPerm : params.Perm params') : Accepts slots params' := by
  have hRead := (hPerm.filterMap (read? slots)).map Prod.fst
  refine ⟨fun p hp => h.readable p (hPerm.mem_iff.mpr hp), hRead.nodup_iff.mp h.distinct, ?_⟩
  exact fun s hs => hRead.mem_iff.mp (h.complete s hs)

/-- **Parameters in another order are decoded into the same table, or not at all.** -/
theorem decode?_perm {params' : List (String × String)} (hPerm : params.Perm params')
    (h : (decode? slots params).value = some t) :
    ∃ t', (decode? slots params').value = some t' ∧ t.Same t' := by
  obtain ⟨hAccepts, rfl⟩ := decode?_eq_some_iff.mp h
  refine ⟨_, decode?_eq_some_iff.mpr ⟨hAccepts.perm hPerm, rfl⟩, rfl, fun key => ?_⟩
  exact Entries.get?_perm hAccepts.distinct (hPerm.filterMap _) key

end ParamTable

end ProbeAtlas
