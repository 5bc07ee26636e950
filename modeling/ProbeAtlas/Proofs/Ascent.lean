import Mathlib.Data.List.Basic
import ProbeAtlas.Netlist.Path

/-!
# ProbeAtlas — ascending to the top

The search for a unique path climbs from a module to the only module that holds a cell of it, and so on
until it arrives at the top. `Design.Ascent` is that way without the bookkeeping of the search. Every
step of it is forced, so there is at most one ascent from a module, and no module is passed twice.

Main results:

* `Design.uniquePath?_ascent` — a path that was found is an ascent of at least two cells.
* `Design.Ascent.holder_ne` — an ascent does not come back to where it began.
-/

namespace ProbeAtlas.Design

variable {d : Design} {top target : String} {u : Use} {us : List Use}

-- ---------------------------------------------------------------------------
-- Cells of a module
-- ---------------------------------------------------------------------------

theorem mem_uses : u ∈ d.uses target ↔
    u.holder ∈ d.modules ∧ u.cell ∈ u.holder.cells ∧ u.cell.type = target := by
  simp only [uses, List.mem_flatMap, List.mem_map, List.mem_filter, beq_iff_eq]
  constructor
  · rintro ⟨m, hm, c, ⟨hc, hType⟩, rfl⟩
    exact ⟨hm, hc, hType⟩
  · rintro ⟨hHolder, hCell, hType⟩
    exact ⟨u.holder, hHolder, u.cell, ⟨hCell, hType⟩, rfl⟩

/-- From a module up to the top, through cells that are the only ones of their type in the design. The
cells stand in the order in which they are passed, and the top is arrived at only once. -/
inductive Ascent (d : Design) (top : String) : String → List Use → Prop
  | arrive {target : String} {u : Use} : d.uses target = [u] → u.holder.name = top →
      Ascent d top target [u]
  | climb {target : String} {u : Use} {us : List Use} : d.uses target = [u] → u.holder.name ≠ top →
      Ascent d top u.holder.name us → Ascent d top target (u :: us)

namespace Ascent

theorem ne_nil (h : d.Ascent top target us) : us ≠ [] := by
  cases h <;> simp

/-- There is one way up at most. -/
theorem eq_of_same_start {vs : List Use} (h : d.Ascent top target us) (h' : d.Ascent top target vs) :
    us = vs := by
  induction h generalizing vs with
  | arrive hUses hTop =>
    cases h' with
    | arrive hUses' _ => exact hUses.symm.trans hUses'
    | climb hUses' hTop' _ =>
      cases hUses.symm.trans hUses'
      exact absurd hTop hTop'
  | climb hUses hTop _ ih =>
    cases h' with
    | arrive hUses' hTop' =>
      cases hUses.symm.trans hUses'
      exact absurd hTop' hTop
    | climb hUses' _ hRest =>
      cases hUses.symm.trans hUses'
      rw [ih hRest]

/-- From every module on the way it is a shorter way to the top. -/
theorem exists_shorter (h : d.Ascent top target us) (hu : u ∈ us.dropLast) :
    ∃ vs, d.Ascent top u.holder.name vs ∧ vs.length < us.length := by
  induction h with
  | arrive => cases hu
  | @climb target first rest hUses hTop hRest ih =>
    rw [List.dropLast_cons_of_ne_nil hRest.ne_nil] at hu
    rcases List.mem_cons.mp hu with rfl | hu
    · exact ⟨rest, hRest, Nat.lt_succ_self _⟩
    · obtain ⟨vs, hvs, hLess⟩ := ih hu
      exact ⟨vs, hvs, Nat.lt_succ_of_lt hLess⟩

/-- **An ascent does not come back to where it began.** -/
theorem holder_ne (h : d.Ascent top target us) (hu : u ∈ us.dropLast) : u.holder.name ≠ target := by
  rintro rfl
  obtain ⟨vs, hvs, hLess⟩ := h.exists_shorter hu
  rw [h.eq_of_same_start hvs] at hLess
  exact Nat.lt_irrefl _ hLess

theorem holder_mem (h : d.Ascent top target us) (hu : u ∈ us) : u.holder ∈ d.modules := by
  induction h with
  | arrive hUses _ =>
    rw [List.mem_singleton.mp hu]
    exact (mem_uses.mp (hUses ▸ List.mem_singleton_self _)).1
  | climb hUses _ _ ih =>
    rcases List.mem_cons.mp hu with rfl | hu
    · exact (mem_uses.mp (hUses ▸ List.mem_singleton_self _)).1
    · exact ih hu

end Ascent

-- ---------------------------------------------------------------------------
-- The search
-- ---------------------------------------------------------------------------

theorem value_arrive (chain : List String) :
    (arrive chain).value = if chain.length < 2 then none else some chain := by
  unfold arrive
  rw [Logged.value_bind]
  split <;> rfl

/-- What a step of a successful climb has found: the only cell of the module, which is in the top or
from whose holder the climb goes on. -/
theorem climb_step {fuel : Nat} {chain : List String} {first : String} {path : UniquePath}
    (h : (d.climb top fuel target chain first).value = some path) :
    ∃ u, d.uses target = [u] ∧
      (u.holder.name = top ∧ 2 ≤ (chain ++ [u.cell.name]).length ∧
          path = ⟨if chain = [] then u.holder.name else first, chain ++ [u.cell.name]⟩ ∨
        u.holder.name ≠ top ∧ ∃ n, fuel = n + 1 ∧
          (d.climb top n u.holder.name (chain ++ [u.cell.name])
            (if chain = [] then u.holder.name else first)).value = some path) := by
  have hFirst : ∀ u : Use, (chain ++ [u.cell.name]).length = 1 ↔ chain = [] := by simp
  have hArrive : ∀ u : Use, ((arrive (chain ++ [u.cell.name])).value.map fun chain' =>
      (⟨if chain = [] then u.holder.name else first, chain'⟩ : UniquePath)) = some path →
      2 ≤ (chain ++ [u.cell.name]).length ∧
        path = ⟨if chain = [] then u.holder.name else first, chain ++ [u.cell.name]⟩ := by
    intro u hPath
    obtain ⟨chain', hChain, rfl⟩ := Option.map_eq_some_iff.mp hPath
    rw [value_arrive] at hChain
    split at hChain
    · cases hChain
    · next hLong =>
      cases hChain
      exact ⟨Nat.le_of_not_lt hLong, rfl⟩
  cases fuel with
  | zero =>
    rw [climb] at h
    simp only [Logged.value_bind, postUses, Logged.value_pure, hFirst] at h
    split at h
    · cases h
    · next u hUses =>
      split at h
      · next hTop => exact ⟨u, hUses, Or.inl ⟨hTop, hArrive u h⟩⟩
      · cases h
    · cases h
  | succ fuel =>
    rw [climb] at h
    simp only [Logged.value_bind, postUses, Logged.value_pure, hFirst] at h
    split at h
    · cases h
    · next u hUses =>
      split at h
      · next hTop => exact ⟨u, hUses, Or.inl ⟨hTop, hArrive u h⟩⟩
      · next hTop => exact ⟨u, hUses, Or.inr ⟨hTop, fuel, rfl, h⟩⟩
    · cases h

/-- The cells passed before come first in the chain, and the module of the first cell of all is the
instantiator. -/
theorem climb_ascent {fuel : Nat} {chain : List String} {first : String} {path : UniquePath}
    (h : (d.climb top fuel target chain first).value = some path) :
    ∃ u us, d.Ascent top target (u :: us) ∧
      path.chain = chain ++ (u :: us).map (fun u => u.cell.name) ∧ 2 ≤ path.chain.length ∧
      path.instantiator = if chain = [] then u.holder.name else first := by
  induction fuel generalizing target chain first with
  | zero =>
    obtain ⟨u, hUses, ⟨hTop, hLong, rfl⟩ | ⟨-, n, hn, -⟩⟩ := climb_step h
    · exact ⟨u, [], .arrive hUses hTop, rfl, hLong, rfl⟩
    · cases hn
  | succ fuel ih =>
    obtain ⟨u, hUses, ⟨hTop, hLong, rfl⟩ | ⟨hTop, n, hn, h⟩⟩ := climb_step h
    · exact ⟨u, [], .arrive hUses hTop, rfl, hLong, rfl⟩
    · cases hn
      obtain ⟨u', us, hAscent, hChain, hLong, hInstantiator⟩ := ih h
      refine ⟨u, u' :: us, .climb hUses hTop hAscent, ?_, hLong, ?_⟩
      · rw [hChain, List.append_assoc]
        rfl
      · rw [hInstantiator, if_neg (by simp)]

/-- **A path that was found is an ascent of at least two cells.** -/
theorem uniquePath?_ascent {path : UniquePath} (h : (d.uniquePath? target).value = some path) :
    ∃ top u v us, d.topModule? = some top ∧ d.Ascent top.name target (u :: v :: us) ∧
      path.instantiator = u.holder.name ∧
      path.chain = (u :: v :: us).map fun u => u.cell.name := by
  unfold uniquePath? at h
  rw [Logged.value_bind] at h
  split at h
  · cases h
  · split at h
    · cases h
    · next top hTop =>
      rw [Logged.value_bind] at h
      split at h
      · cases h
      · next found hFound =>
        cases h
        obtain ⟨u, us, hAscent, hChain, hLong, hInstantiator⟩ := climb_ascent hFound
        cases us with
        | nil =>
          rw [hChain] at hLong
          cases hLong with
          | step h => cases h
        | cons v us => exact ⟨top, u, v, us, hTop, hAscent, hInstantiator, hChain⟩

end ProbeAtlas.Design
