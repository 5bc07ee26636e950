import Mathlib.Data.List.Forall2
import ProbeAtlas.Debug.Bench

/-!
# ProbeAtlas — how stages end

A stage is a chain of smaller stages, and later proofs take such chains apart: a chain that ends with
a value has ended with a value at every link. The lemmas here do this for plain results, for runs and
for steps on the bench. Entries posted on the way have no influence on how a stage ends.

Main results:

* `Run.result_bind_eq_ok` — a run ends with a value iff both of its parts do.
* `mapM_eq_ok_iff` — a traversal ends with a value iff every item does.
* `Step.andThen_eq_ok_true` — two steps pass iff each of them passes in turn.
-/

namespace ProbeAtlas

open Logged (post)

variable {α β : Type}

/-! ## Plain results -/

theorem except_bind_eq_ok {ε : Type} {x : Except ε α} {f : α → Except ε β} {b : β} :
    (x >>= f) = .ok b ↔ ∃ a, x = .ok a ∧ f a = .ok b := by
  cases x with
  | error e => simp [bind, Except.bind]
  | ok a => simp [bind, Except.bind]

theorem except_map_eq_ok {ε : Type} {x : Except ε α} {f : α → β} {b : β} :
    x.map f = .ok b ↔ ∃ a, x = .ok a ∧ f a = b := by
  cases x with
  | error e => simp [Except.map]
  | ok a => simp [Except.map]

/-- Related lists have, for every item of the second, a related item of the first. -/
theorem exists_of_mem_right {R : α → β → Prop} {xs : List α} {ys : List β}
    (h : List.Forall₂ R xs ys) {y : β} (hy : y ∈ ys) : ∃ x ∈ xs, R x y := by
  induction h with
  | nil => cases hy
  | cons hxy _ ih =>
    rcases List.mem_cons.mp hy with rfl | hy
    · exact ⟨_, List.mem_cons_self .., hxy⟩
    · obtain ⟨x, hx, hR⟩ := ih hy
      exact ⟨x, List.mem_cons_of_mem _ hx, hR⟩

/-- A traversal ends with a value iff every item does, and then the values stand in order. -/
theorem mapM_eq_ok_iff {ε : Type} {f : α → Except ε β} {xs : List α} {ys : List β} :
    xs.mapM f = .ok ys ↔ List.Forall₂ (fun x y => f x = .ok y) xs ys := by
  induction xs generalizing ys with
  | nil =>
    rw [List.mapM_nil, List.forall₂_nil_left_iff]
    exact ⟨fun h => (Except.ok.inj h).symm, fun h => h ▸ rfl⟩
  | cons x xs ih =>
    rw [List.mapM_cons, except_bind_eq_ok, List.forall₂_cons_left_iff]
    constructor
    · rintro ⟨y, hy, h⟩
      obtain ⟨rest, hrest, h⟩ := except_bind_eq_ok.mp h
      exact ⟨y, rest, hy, ih.mp hrest, (Except.ok.inj h).symm⟩
    · rintro ⟨y, rest, hy, hrest, rfl⟩
      exact ⟨y, hy, except_bind_eq_ok.mpr ⟨rest, ih.mpr hrest, rfl⟩⟩

/-- Where the value of an item is a function of the item, a traversal maps that function. -/
theorem mapM_eq_ok_map {ε : Type} {f : α → Except ε β} {g : α → β} {P : α → Prop}
    (hf : ∀ x y, f x = .ok y → P x ∧ y = g x) {xs : List α} {ys : List β}
    (h : xs.mapM f = .ok ys) : (∀ x ∈ xs, P x) ∧ ys = xs.map g := by
  have hEach := mapM_eq_ok_iff.mp h
  clear h
  induction hEach with
  | nil => simp
  | cons hxy _ ih =>
    obtain ⟨hP, rfl⟩ := hf _ _ hxy
    exact ⟨List.forall_mem_cons.mpr ⟨hP, ih.1⟩, by rw [ih.2, List.map_cons]⟩

/-! ## Runs -/

@[simp] theorem Logged.value_map (f : α → β) (x : Logged α) : (f <$> x).value = f x.value := rfl

namespace Run

@[simp] theorem result_lift (x : Logged α) : (liftM x : Run α).result = .ok x.value := rfl

@[simp] theorem result_lift_bind (x : Logged α) (f : α → Run β) :
    ((liftM x : Run α) >>= f).result = (f x.value).result := rfl

@[simp] theorem result_ofLogged (x : Logged α) : (ofLogged x).result = .ok x.value := rfl

/-- **A run ends with a value iff both of its parts do.** -/
theorem result_bind_eq_ok {r : Run α} {f : α → Run β} {b : β} :
    (r >>= f).result = .ok b ↔ ∃ a, r.result = .ok a ∧ (f a).result = .ok b := by
  rw [result_bind]
  cases r.result with
  | error fault => simp
  | ok a => simp

end Run

/-! ## Steps on the bench -/

namespace Step

/-- After a step that passes, what follows decides. -/
theorem andThen_of_passed {s : Step} (h : s.result = .ok true) (next : Bench → Step) :
    (s.andThen next).result = (next s.bench).result ∧
      (s.andThen next).bench = (next s.bench).bench := by
  rw [andThen, h]
  exact ⟨rfl, rfl⟩

/-- **Two steps pass iff each of them passes in turn.** -/
theorem andThen_eq_ok_true {s : Step} {next : Bench → Step} :
    (s.andThen next).result = .ok true ↔
      s.result = .ok true ∧ (next s.bench).result = .ok true := by
  constructor
  · intro h
    have hs : s.result = .ok true := by
      unfold andThen at h
      split at h
      · assumption
      · exact h
    exact ⟨hs, (andThen_of_passed hs next).1 ▸ h⟩
  · rintro ⟨hs, hnext⟩
    rw [(andThen_of_passed hs next).1, hnext]

end Step

/-- The verdict over some items is positive iff none of them has a complaint. -/
theorem complainEach_value_iff {items : List α} {complaint : α → Option String} :
    (complainEach items complaint).value = true ↔ ∀ x ∈ items, complaint x = none := by
  have hvalue : (complainEach items complaint).value = (items.filterMap complaint).isEmpty := rfl
  rw [hvalue, List.isEmpty_iff, List.filterMap_eq_nil_iff]

end ProbeAtlas
