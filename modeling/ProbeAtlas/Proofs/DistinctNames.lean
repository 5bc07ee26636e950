import Mathlib.Data.List.Nodup
import ProbeAtlas.Netlist.Format
import ProbeAtlas.Proofs.Entries

/-!
# ProbeAtlas — the modules of a netlist have distinct names

An object keeps one entry for a key, however often the key is written. So no object in a tree that was
read has a key twice (`Value.Keyed`), and a module is found under its own name.

Main results:

* `Json.read?_keyed` — this holds for every JSON text.
* `Design.parse_distinctNames` — the modules of a design that was read have distinct names.
-/

namespace ProbeAtlas

-- ---------------------------------------------------------------------------
-- Trees
-- ---------------------------------------------------------------------------

/-- No object in the tree has a key twice. -/
inductive Value.Keyed : Value → Prop
  | null : Keyed .null
  | bool (b : Bool) : Keyed (.bool b)
  | number (n : Number) : Keyed (.number n)
  | string (s : String) : Keyed (.string s)
  | date (text : String) : Keyed (.date text)
  | array {items : List Value} : (∀ v ∈ items, Keyed v) → Keyed (.array items)
  | object {entries : List (String × Value)} : (entries.map Prod.fst).Nodup →
      (∀ e ∈ entries, Keyed e.2) → Keyed (.object entries)

theorem Value.Keyed.nodup_entries {v : Value} (h : v.Keyed) : (v.entries.map Prod.fst).Nodup := by
  cases h with
  | object hNodup _ => exact hNodup
  | _ => exact List.nodup_nil

theorem Value.Keyed.of_mem_entries {v : Value} (h : v.Keyed) {e : String × Value}
    (he : e ∈ v.entries) : e.2.Keyed := by
  cases h with
  | object _ hEntries => exact hEntries e he
  | _ => cases he

namespace Json

theorem readNumber_eq_number {cs rest : List Char} {v : Value} (h : readNumber cs = some (v, rest)) :
    ∃ n, v = .number n := by
  have hUnsigned : ∀ negative cs, readUnsigned negative cs = some (v, rest) → ∃ n, v = .number n := by
    intro negative cs h
    unfold readUnsigned at h
    simp only [Option.bind_eq_bind, Option.bind_eq_some_iff, Option.pure_def, Option.some.injEq,
      Prod.mk.injEq] at h
    obtain ⟨-, -, -, -, -, -, rfl, -⟩ := h
    exact ⟨_, rfl⟩
  unfold readNumber at h
  split at h
  · exact hUnsigned _ _ h
  · exact hUnsigned _ _ h

theorem read_keyed (fuel : Nat) :
    (∀ cs v rest, readValue fuel cs = some (v, rest) → v.Keyed) ∧
    (∀ cs acc v rest, (∀ a ∈ acc, Value.Keyed a) → readItems fuel cs acc = some (v, rest) → v.Keyed) ∧
    ∀ cs acc v rest, (∀ e ∈ acc, Value.Keyed e.2) → readMembers fuel cs acc = some (v, rest) →
      v.Keyed := by
  induction fuel with
  | zero => exact ⟨by simp [readValue], by simp [readItems], by simp [readMembers]⟩
  | succ fuel ih =>
    obtain ⟨ihValue, ihItems, ihMembers⟩ := ih
    refine ⟨?_, ?_, ?_⟩
    · intro cs v rest h
      rw [readValue] at h
      split at h
      · cases h
        exact .null
      · cases h
        exact .bool true
      · cases h
        exact .bool false
      · obtain ⟨⟨text, left⟩, -, hEq⟩ := Option.map_eq_some_iff.mp h
        cases hEq
        exact .string text
      · split at h
        · cases h
          exact .array (by simp)
        · exact ihItems _ _ v rest (by simp) h
      · split at h
        · cases h
          exact .object List.nodup_nil (by simp)
        · exact ihMembers _ _ v rest (by simp) h
      · obtain ⟨n, rfl⟩ := readNumber_eq_number h
        exact .number n
    · intro cs acc v rest hAcc h
      rw [readItems] at h
      split at h
      · cases h
      · next item left hItem =>
        have hAll := List.forall_mem_cons.mpr ⟨ihValue _ _ _ hItem, hAcc⟩
        split at h
        · exact ihItems _ _ v rest hAll h
        · cases h
          exact .array fun a ha => hAll a (List.mem_reverse.mp ha)
        · cases h
    · intro cs acc v rest hAcc h
      rw [readMembers] at h
      split at h
      · split at h
        · cases h
        · next key _ _ =>
          split at h
          · split at h
            · cases h
            · next member _ hMember =>
              have hAll : ∀ e ∈ (key, member) :: acc, Value.Keyed e.2 :=
                List.forall_mem_cons.mpr ⟨ihValue _ _ _ hMember, hAcc⟩
              split at h
              · exact ihMembers _ _ v rest hAll h
              · cases h
                exact .object (Entries.nodup_keys_ofPairs _)
                  fun e he => hAll e (List.mem_reverse.mp (Entries.mem_of_mem_ofPairs he))
              · cases h
          · cases h
      · cases h

/-- **No object in a tree that was read has a key twice.** -/
theorem read?_keyed {text : String} {v : Value} (h : read? text = some v) : v.Keyed := by
  unfold read? at h
  dsimp only at h
  split at h
  · next found rest hRead =>
    split at h
    · cases h
      exact (read_keyed _).1 _ _ _ hRead
    · cases h
  · cases h

end Json

-- ---------------------------------------------------------------------------
-- Designs
-- ---------------------------------------------------------------------------

/-- The entries of a record have distinct names. -/
theorem NetlistFormat.nodup_recordOf {v : Value} (h : v.Keyed) (field : String) :
    ((recordOf v field).map Prod.fst).Nodup := by
  unfold recordOf
  cases hPart : v.field? field with
  | none => exact List.nodup_nil
  | some part =>
    obtain ⟨e, hFind, rfl⟩ := Option.map_eq_some_iff.mp hPart
    have hKeyed := h.of_mem_entries (List.mem_of_find?_eq_some hFind)
    exact hKeyed.nodup_entries.sublist (List.filter_sublist.map Prod.fst)

namespace Design

/-- Every module has a name of its own. -/
def DistinctNames (d : Design) : Prop :=
  (d.modules.map Module.name).Nodup

/-- Every module is found under its name. -/
theorem DistinctNames.find?_of_mem {d : Design} (h : d.DistinctNames) {m : Module}
    (hm : m ∈ d.modules) : d.find? m.name = some m := by
  have hSome : (d.find? m.name).isSome :=
    List.find?_isSome.mpr ⟨m, hm, beq_self_eq_true _⟩
  obtain ⟨found, hFound⟩ := Option.isSome_iff_exists.mp hSome
  have hName : found.name = m.name := by simpa using List.find?_some hFound
  rw [hFound, List.inj_on_of_nodup_map h (List.mem_of_find?_eq_some hFound) hm hName]

/-- **The modules of a design that was read have distinct names.** -/
theorem parse_distinctNames {choice : TopChoice} {text : String} {d : Design}
    (h : Design.parse choice text = .ok d) : d.DistinctNames := by
  unfold parse at h
  split at h
  · cases h
  · next v hRead =>
    unfold ofValue at h
    split at h
    · cases h
    · cases h
      show List.Nodup (List.map Module.name (List.map _ _))
      rw [List.map_map]
      exact NetlistFormat.nodup_recordOf (Json.read?_keyed hRead) "modules"

end Design

end ProbeAtlas
