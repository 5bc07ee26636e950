import Mathlib.Data.List.Find
import Mathlib.Data.List.Nodup
import Mathlib.Data.List.Perm.Basic
import ProbeAtlas.Value.Entries

/-!
# ProbeAtlas — what an object keeps of what is written

The entries of an object come from the pairs it is written as. An object has every key that is written,
and it has it once, whatever place the entry is given. So every entry is found under its key.

Main results: `Entries.mem_of_mem_ofPairs`, `Entries.mem_keys_ofPairs`, `Entries.nodup_keys_ofPairs` and
`Entries.get?_eq_some_iff`.
-/

namespace ProbeAtlas

/-- Items with distinct keys are found in any order. -/
theorem find?_key_perm {α : Type} {key : α → String} {xs ys : List α} (hNodup : (xs.map key).Nodup)
    (h : xs.Perm ys) (name : String) :
    (ys.find? fun x => key x == name) = xs.find? fun x => key x == name := by
  refine (List.find?_eq_find?_of_perm h ?_).symm
  rintro x ⟨hx, hKey⟩ x' ⟨hx', hKey'⟩
  refine List.inj_on_of_nodup_map hNodup hx hx' ?_
  exact (beq_iff_eq.mp hKey).trans (beq_iff_eq.mp hKey').symm

/-- Of items with distinct keys the one with the given key is found. -/
theorem find?_key_eq_some_iff {α : Type} {key : α → String} {xs : List α} (hNodup : (xs.map key).Nodup)
    {name : String} {x : α} : (xs.find? fun y => key y == name) = some x ↔ x ∈ xs ∧ key x = name := by
  constructor
  · intro h
    exact ⟨List.mem_of_find?_eq_some h, by simpa using List.find?_some h⟩
  · rintro ⟨hx, rfl⟩
    have hFound : (xs.find? fun y => key y == key x).isSome = true :=
      List.find?_isSome.mpr ⟨x, hx, beq_self_eq_true _⟩
    obtain ⟨y, hy⟩ := Option.isSome_iff_exists.mp hFound
    have hKey : key y = key x := by simpa using List.find?_some hy
    rw [hy, List.inj_on_of_nodup_map hNodup (List.mem_of_find?_eq_some hy) hx hKey]

namespace Entries

variable {α : Type}

theorem get?_isSome_iff {entries : List (String × α)} {key : String} :
    (get? entries key).isSome = true ↔ key ∈ entries.map Prod.fst := by
  unfold get?
  rw [Option.isSome_map, List.find?_isSome]
  simp

theorem get?_eq_none_iff {entries : List (String × α)} {key : String} :
    get? entries key = none ↔ key ∉ entries.map Prod.fst := by
  rw [← Option.not_isSome_iff_eq_none, get?_isSome_iff]

/-- The entries in front are looked at first. -/
theorem get?_append (front behind : List (String × α)) (key : String) :
    get? (front ++ behind) key = (get? front key).or (get? behind key) := by
  unfold get?
  rw [List.find?_append, Option.map_or]

/-- Entries are found under their keys whatever becomes of the values. -/
theorem get?_map_snd {β : Type} (f : α → β) (entries : List (String × α)) (key : String) :
    get? (entries.map fun e => (e.1, f e.2)) key = (get? entries key).map f := by
  unfold get?
  rw [List.find?_map, Option.map_map, Option.map_map]
  rfl

theorem mem_of_get? {entries : List (String × α)} {key : String} {v : α}
    (h : get? entries key = some v) : (key, v) ∈ entries := by
  obtain ⟨e, he, rfl⟩ := Option.map_eq_some_iff.mp h
  have hKey : e.1 = key := by simpa using List.find?_some he
  exact hKey ▸ List.mem_of_find?_eq_some he

/-- Entries with distinct keys can stand in any order. -/
theorem get?_perm {entries entries' : List (String × α)} (hNodup : (entries.map Prod.fst).Nodup)
    (h : entries.Perm entries') (key : String) : get? entries' key = get? entries key := by
  rw [get?, get?, find?_key_perm hNodup h]

/-- With distinct keys every entry is found under its key. -/
theorem get?_eq_some_iff {entries : List (String × α)} {key : String} {v : α}
    (hNodup : (entries.map Prod.fst).Nodup) : get? entries key = some v ↔ (key, v) ∈ entries := by
  rw [get?, Option.map_eq_some_iff]
  simp only [find?_key_eq_some_iff hNodup]
  constructor
  · rintro ⟨e, ⟨he, rfl⟩, rfl⟩
    exact he
  · intro hMem
    exact ⟨(key, v), ⟨hMem, rfl⟩, rfl⟩

theorem mem_put {key : String} {value : α} {entries : List (String × α)} {e : String × α}
    (h : e ∈ put key value entries) : e = (key, value) ∨ e ∈ entries := by
  induction entries with
  | nil => exact Or.inl (by simpa [put] using h)
  | cons first rest ih =>
    obtain ⟨k, v⟩ := first
    rw [put] at h
    split at h
    case isTrue hk =>
      rcases List.mem_cons.mp h with rfl | h
      · exact Or.inl (by rw [hk])
      · exact Or.inr (List.mem_cons_of_mem _ h)
    case isFalse =>
      rcases List.mem_cons.mp h with rfl | h
      · exact Or.inr (List.mem_cons_self ..)
      · exact (ih h).imp id (List.mem_cons_of_mem _)

theorem keys_put (key : String) (value : α) (entries : List (String × α)) :
    (put key value entries).map Prod.fst =
      if key ∈ entries.map Prod.fst then entries.map Prod.fst
      else entries.map Prod.fst ++ [key] := by
  induction entries with
  | nil => rfl
  | cons first rest ih =>
    obtain ⟨k, v⟩ := first
    rw [put]
    by_cases hk : k = key
    · rw [if_pos hk, if_pos (by simp [hk])]
      rfl
    · have hMem : key ∈ ((k, v) :: rest).map Prod.fst ↔ key ∈ rest.map Prod.fst := by
        simp [Ne.symm hk]
      rw [if_neg hk, List.map_cons, ih, if_congr hMem rfl rfl]
      split <;> rfl

/-- Putting a value makes its key known and forgets no key. -/
theorem mem_keys_put {key other : String} {value : α} {entries : List (String × α)} :
    other ∈ (put key value entries).map Prod.fst ↔ other = key ∨ other ∈ entries.map Prod.fst := by
  rw [keys_put]
  split
  · next hKnown => exact ⟨Or.inr, fun h => h.elim (fun hEq => hEq ▸ hKnown) id⟩
  · rw [List.mem_append, List.mem_singleton, or_comm]

theorem nodup_keys_put {key : String} {value : α} {entries : List (String × α)}
    (h : (entries.map Prod.fst).Nodup) : ((put key value entries).map Prod.fst).Nodup := by
  rw [keys_put]
  split
  · exact h
  · next hNew => exact List.nodup_append_comm.mp (List.nodup_cons.mpr ⟨hNew, h⟩)

/-- Ordering loses no entry. -/
theorem ordered_perm (entries : List (String × α)) : (ordered entries).Perm entries := by
  have hIndexed : (entries.filterMap fun e => (index? e.1).map fun i => (i, e)).map Prod.snd =
      entries.filter fun e => (index? e.1).isSome := by
    induction entries with
    | nil => rfl
    | cons e rest ih =>
      cases hIndex : index? e.1 with
      | none => simp [hIndex, ih]
      | some i => simp [hIndex, ih]
  have hOthers : (entries.filter fun e => (index? e.1).isNone) =
      entries.filter fun e => !(index? e.1).isSome := by
    simp
  refine List.Perm.trans ?_ (List.filter_append_perm (fun e => (index? e.1).isSome) entries)
  rw [ordered, hOthers, ← hIndexed]
  exact ((List.mergeSort_perm _ _).map Prod.snd).append_right _

/-- Pairs written after some entries: where the entries come from, which keys there are, and that no key
is there twice. -/
theorem foldl_put (pairs : List (String × α)) (entries : List (String × α)) :
    (∀ e ∈ pairs.foldl (fun es pair => put pair.1 pair.2 es) entries, e ∈ pairs ∨ e ∈ entries) ∧
      (∀ key, key ∈ (pairs.foldl (fun es pair => put pair.1 pair.2 es) entries).map Prod.fst ↔
        key ∈ pairs.map Prod.fst ∨ key ∈ entries.map Prod.fst) ∧
      ((entries.map Prod.fst).Nodup →
        ((pairs.foldl (fun es pair => put pair.1 pair.2 es) entries).map Prod.fst).Nodup) := by
  induction pairs generalizing entries with
  | nil => simp
  | cons pair rest ih =>
    obtain ⟨hMem, hKeys, hNodup⟩ := ih (put pair.1 pair.2 entries)
    refine ⟨?_, ?_, fun h => hNodup (nodup_keys_put h)⟩
    · intro e he
      rcases hMem e he with he | he
      · exact Or.inl (List.mem_cons_of_mem _ he)
      · rcases mem_put he with rfl | he
        · exact Or.inl (List.mem_cons_self ..)
        · exact Or.inr he
    · intro key
      rw [List.foldl_cons, hKeys key, mem_keys_put, List.map_cons, List.mem_cons]
      tauto

theorem mem_of_mem_ofPairs {pairs : List (String × α)} {e : String × α} (h : e ∈ ofPairs pairs) :
    e ∈ pairs :=
  ((foldl_put pairs []).1 e ((ordered_perm _).mem_iff.mp h)).resolve_right List.not_mem_nil

theorem mem_keys_ofPairs {pairs : List (String × α)} {key : String} :
    key ∈ (ofPairs pairs).map Prod.fst ↔ key ∈ pairs.map Prod.fst := by
  rw [ofPairs, ((ordered_perm _).map Prod.fst).mem_iff, (foldl_put pairs []).2.1 key]
  exact or_iff_left List.not_mem_nil

/-- **An object has every key once.** -/
theorem nodup_keys_ofPairs (pairs : List (String × α)) : ((ofPairs pairs).map Prod.fst).Nodup :=
  ((ordered_perm _).map Prod.fst).nodup_iff.mpr ((foldl_put pairs []).2.2 List.nodup_nil)

/-- If every entry follows one rule, so does the look-up of any key that occurs. -/
theorem get?_eq_of_forall {entries : List (String × α)} {f : String → Option α}
    (hRule : ∀ e ∈ entries, f e.1 = some e.2) {key : String}
    (hKey : key ∈ entries.map Prod.fst) : get? entries key = f key := by
  unfold get?
  cases hfind : entries.find? fun e => e.1 == key with
  | none =>
    obtain ⟨e, he, rfl⟩ := List.mem_map.mp hKey
    have := List.find?_eq_none.mp hfind e he
    simp at this
  | some e =>
    have hkey : e.1 = key := by simpa using List.find?_some hfind
    rw [Option.map_some, ← hkey]
    exact (hRule e (List.mem_of_find?_eq_some hfind)).symm

end Entries

end ProbeAtlas
