import Mathlib.Algebra.BigOperators.Group.List.Basic
import Mathlib.Algebra.Ring.Nat
import ProbeAtlas.Debug.Packed
import ProbeAtlas.Proofs.Outcome

/-!
# ProbeAtlas — probe layouts in the making

Unpacking the words of a subsystem gives one probe after another to an interface. `Layout.Sound` is
the invariant of this process: no probe is given twice, a probe lies behind the widths of the probes
before it, and the width of an interface is the sum of the widths of its probes. One assignment keeps
it (`Layout.Sound.assign`), so a whole word does (`Subsystem.place_sound`), and so do all words
(`Subsystem.placeAll_sound`).

Main result: `Subsystem.decodeLayout_fits` — a decoded layout is sound, lists exactly the declared
number of probes, and gives some to every native interface and none to any other.
-/

namespace ProbeAtlas

/-- The declared width of the probe at a position, zero where there is none. -/
def Subsystem.probeWidth (s : Subsystem) (probe : Nat) : Nat :=
  ((s.interfaces[probe]?).map Interface.probeWidth).getD 0

/-- How many bits the given probes take together. -/
def Subsystem.span (s : Subsystem) (probes : List Nat) : Nat :=
  (probes.map s.probeWidth).sum

namespace Subsystem

@[simp] theorem span_nil (s : Subsystem) : s.span [] = 0 := rfl

@[simp] theorem span_cons (s : Subsystem) (p : Nat) (ps : List Nat) :
    s.span (p :: ps) = s.probeWidth p + s.span ps := by
  simp [span]

@[simp] theorem span_append (s : Subsystem) (ps qs : List Nat) :
    s.span (ps ++ qs) = s.span ps + s.span qs := by
  simp [span]

theorem span_perm {s : Subsystem} {ps qs : List Nat} (h : ps.Perm qs) : s.span ps = s.span qs :=
  (h.map _).sum_eq

theorem interface_eq_ok {s : Subsystem} {i : Nat} {itf : Interface} :
    s.interface i = .ok itf ↔ s.interfaces[i]? = some itf := by
  unfold interface
  split <;> simp_all

theorem probeWidth_of_interface {s : Subsystem} {i : Nat} {itf : Interface}
    (h : s.interface i = .ok itf) : itf.probeWidth = s.probeWidth i := by
  rw [probeWidth, interface_eq_ok.mp h, Option.map_some, Option.getD_some]

theorem widthOf_eq_ok {s : Subsystem} {i width : Nat} :
    widthOf (some s) i = .ok width ↔ ∃ itf, s.interfaces[i]? = some itf ∧ itf.probeWidth = width := by
  constructor
  · intro h
    obtain ⟨s', hs', h⟩ := except_bind_eq_ok.mp h
    cases hs'
    obtain ⟨itf, hItf, h⟩ := except_bind_eq_ok.mp h
    exact ⟨itf, interface_eq_ok.mp hItf, Except.ok.inj h⟩
  · rintro ⟨itf, hItf, rfl⟩
    exact except_bind_eq_ok.mpr ⟨s, rfl, except_bind_eq_ok.mpr ⟨itf, interface_eq_ok.mpr hItf, rfl⟩⟩

end Subsystem

/-! ## The invariant -/

/-- The layout gives no probe twice, and its offsets and widths add up. -/
structure Layout.Sound (s : Subsystem) (l : Layout) : Prop where
  order_length : l.order.length = interfaceCount
  owner_length : l.owner.length = interfaceCount
  width_length : l.coreWidth.length = interfaceCount
  nodup        : l.order.flatten.Nodup
  owned        : l.ownedCount = l.order.flatten.length
  known        : ∀ p ∈ l.order.flatten, p < s.lastProbe
  positive     : ∀ p ∈ l.order.flatten, 0 < s.probeWidth p
  offset       : ∀ (i : Nat) before p after, l.order[i]? = some (before ++ p :: after) →
                   l.owner? p = some ⟨i, s.span before⟩
  coreWidth    : ∀ (i : Nat) order, l.order[i]? = some order → l.coreWidth[i]? = some (s.span order)

namespace Layout

theorem sound_empty (s : Subsystem) : Layout.empty.Sound s := by
  have hflat : Layout.empty.order.flatten = [] := by decide
  refine ⟨by decide, by decide, by decide, by simp [hflat], by decide, by simp [hflat],
    by simp [hflat], ?_, ?_⟩
  · intro i before p after h
    have := List.eq_of_mem_replicate (List.mem_of_getElem? h)
    simp at this
  · intro i order h
    have hi := (List.getElem?_eq_some_iff.mp h).1
    have hnil := List.eq_of_mem_replicate (List.mem_of_getElem? h)
    subst hnil
    exact List.getElem?_replicate_of_lt (by simpa [empty] using hi)

variable {s : Subsystem} {l : Layout}

theorem mem_flatten_of_getElem? {i p : Nat} {order : List Nat} (h : l.order[i]? = some order)
    (hp : p ∈ order) : p ∈ l.order.flatten :=
  List.mem_flatten.mpr ⟨order, List.mem_of_getElem? h, hp⟩

/-- A probe without an owner is in no interface. -/
theorem Sound.not_mem_of_owner? (h : l.Sound s) {p : Nat} (hp : l.owner? p = none) :
    p ∉ l.order.flatten := by
  intro hmem
  obtain ⟨order, hOrder, hpo⟩ := List.mem_flatten.mp hmem
  obtain ⟨i, hi⟩ := List.getElem?_of_mem hOrder
  obtain ⟨before, after, rfl⟩ := List.append_of_mem hpo
  rw [h.offset i before p after hi] at hp
  cases hp

theorem owner?_assign {core p w : Nat} (hp : p < l.owner.length) (q : Nat) :
    (l.assign core p w).owner? q = if p = q then some ⟨core, l.widthAt core⟩ else l.owner? q := by
  show ((l.owner.set p _)[q]?).join = _
  rw [List.getElem?_set]
  by_cases hq : p = q
  · rw [if_pos hq, if_pos hq, if_pos hp, Option.join_some]
  · rw [if_neg hq, if_neg hq, owner?]

@[simp] theorem length_owner_assign {core p w : Nat} :
    (l.assign core p w).owner.length = l.owner.length :=
  List.length_set ..

theorem order_assign {core p w : Nat} (i : Nat) :
    (l.assign core p w).order[i]? =
      (l.order[i]?).map (· ++ if core = i then [p] else []) := by
  show (l.order.modify core (· ++ [p]))[i]? = _
  rw [List.getElem?_modify, Option.map_eq_map]
  split <;> simp

theorem flatten_assign (core probe width : Nat) (h : core < l.order.length) :
    (l.assign core probe width).order.flatten.Perm (probe :: l.order.flatten) := by
  show (l.order.modify core (· ++ [probe])).flatten.Perm _
  rw [List.modify_eq_take_cons_drop h]
  have hsplit : l.order = l.order.take core ++ l.order[core] :: l.order.drop (core + 1) := by
    rw [List.getElem_cons_drop, List.take_append_drop]
  rw [List.flatten_append, List.flatten_cons, List.append_assoc]
  conv_rhs => rw [hsplit, List.flatten_append, List.flatten_cons]
  rw [List.singleton_append, ← List.append_assoc, ← List.append_assoc]
  exact List.perm_middle

/-- **Giving a probe without an owner to an interface keeps the layout sound.** -/
theorem Sound.assign (h : l.Sound s) {core p : Nat} (hCore : core < interfaceCount)
    (hFree : l.owner? p = none) (hKnown : p < s.lastProbe) (hPos : 0 < s.probeWidth p) :
    (l.assign core p (s.probeWidth p)).Sound s := by
  have hCoreLt : core < l.order.length := h.order_length ▸ hCore
  have hpLt : p < l.owner.length := by
    rw [h.owner_length]
    exact lt_of_lt_of_le hKnown (Nat.min_le_left _ _)
  have hPerm := flatten_assign core p (s.probeWidth p) hCoreLt
  have hNew := h.not_mem_of_owner? hFree
  obtain ⟨old, hOld⟩ : ∃ old, l.order[core]? = some old := ⟨_, List.getElem?_eq_getElem hCoreLt⟩
  have hWidth : l.coreWidth[core]? = some (s.span old) := h.coreWidth core old hOld
  -- what the interface at a position owns now
  have hOrder : ∀ i, (l.assign core p (s.probeWidth p)).order[i]? =
      if core = i then some (old ++ [p]) else l.order[i]? := by
    intro i
    rw [order_assign]
    by_cases hi : core = i
    · rw [if_pos hi, if_pos hi, ← hi, hOld, Option.map_some]
    · simp [hi]
  have hOwner : ∀ q, (l.assign core p (s.probeWidth p)).owner? q =
      if p = q then some ⟨core, s.span old⟩ else l.owner? q := by
    intro q
    rw [owner?_assign hpLt, widthAt, hWidth, Option.getD_some]
  refine ⟨?_, ?_, ?_, ?_, ?_, ?_, ?_, ?_, ?_⟩
  · exact (List.length_modify ..).trans h.order_length
  · exact (List.length_set ..).trans h.owner_length
  · exact (List.length_modify ..).trans h.width_length
  · exact hPerm.nodup_iff.mpr (List.nodup_cons.mpr ⟨hNew, h.nodup⟩)
  · rw [hPerm.length_eq, List.length_cons, ← h.owned]
    have hNone : (l.owner[p]).isSome = false := by
      have hj : (l.owner[p]?).join = none := hFree
      rw [List.getElem?_eq_getElem hpLt, Option.join_some] at hj
      rw [hj, Option.isSome_none]
    show (l.owner.set p _).countP Option.isSome = _
    rw [List.countP_set hpLt, hNone]
    rfl
  · intro q hq
    rcases List.mem_cons.mp (hPerm.mem_iff.mp hq) with rfl | hq
    · exact hKnown
    · exact h.known q hq
  · intro q hq
    rcases List.mem_cons.mp (hPerm.mem_iff.mp hq) with rfl | hq
    · exact hPos
    · exact h.positive q hq
  · intro i before q after hi
    rw [hOrder] at hi
    rw [hOwner]
    split at hi
    · next hci =>
      subst hci
      rcases List.eq_nil_or_concat after with rfl | ⟨init, last, rfl⟩
      · -- the probe that was just given
        obtain ⟨rfl, hpq⟩ := List.append_inj' (Option.some.inj hi) rfl
        rw [if_pos (List.singleton_inj.mp hpq)]
      · -- a probe that the interface had before
        have hcut : old ++ [p] = (before ++ q :: init) ++ [last] := by
          rw [Option.some.inj hi]
          simp
        obtain ⟨rfl, -⟩ := List.append_inj' hcut rfl
        have hne : p ≠ q := by
          rintro rfl
          exact hNew (mem_flatten_of_getElem? hOld (by simp))
        rw [if_neg hne]
        exact h.offset core before q init hOld
    · have hne : p ≠ q := by
        rintro rfl
        exact hNew (mem_flatten_of_getElem? hi (by simp))
      rw [if_neg hne]
      exact h.offset i before q after hi
  · intro i order hi
    rw [hOrder] at hi
    show (l.coreWidth.modify core (· + s.probeWidth p))[i]? = _
    rw [List.getElem?_modify, Option.map_eq_map]
    split at hi
    · next hci =>
      simp only [if_pos hci]
      rw [← hci, hWidth, Option.map_some, ← Option.some.inj hi, Subsystem.span_append,
        Subsystem.span_cons, Subsystem.span_nil, Nat.add_zero]
    · next hci =>
      simp only [if_neg hci, Option.map_id']
      exact h.coreWidth i order hi

theorem order_assign_of_ne {core i : Nat} (h : core ≠ i) (probe width : Nat) :
    (l.assign core probe width).order[i]? = l.order[i]? := by
  rw [order_assign, if_neg h]
  simp

/-- The widths of the interfaces are the sums over their probes. -/
theorem Sound.coreWidth_eq (h : l.Sound s) : l.coreWidth = l.order.map s.span := by
  refine List.ext_getElem? fun i => ?_
  rw [List.getElem?_map]
  cases hOrder : l.order[i]? with
  | some order => exact h.coreWidth i order hOrder
  | none =>
    rw [List.getElem?_eq_none_iff, h.order_length] at hOrder
    rw [Option.map_none, List.getElem?_eq_none_iff, h.width_length]
    exact hOrder

end Layout

/-! ## Unpacking words -/

namespace Subsystem

/-- A word that can be unpacked keeps the layout sound and leaves the other interfaces alone. -/
theorem place_sound {s : Subsystem} {core : Nat} (hCore : core < interfaceCount) {ps : List Nat}
    {l l' : Layout} (hl : l.Sound s) (h : (s.place core ps l).result = .ok (some l')) :
    l'.Sound s ∧ ∀ i, core ≠ i → l'.order[i]? = l.order[i]? := by
  induction ps generalizing l with
  | nil =>
    cases h
    exact ⟨hl, fun _ _ => rfl⟩
  | cons p rest ih =>
    rw [place] at h
    split at h
    · cases h
    case isFalse hRange =>
      obtain ⟨itf, hItf, h⟩ := Run.result_bind_eq_ok.mp h
      rw [Run.result_ofExcept] at hItf
      dsimp only at h
      split at h
      · cases h
      next hWidth =>
      split at h
      · cases h
      next hOwned =>
        rw [Run.result_lift_bind, probeWidth_of_interface hItf] at h
        have hFree : l.owner? (p - 1) = none := by
          simpa using hOwned
        have hPos : 0 < s.probeWidth (p - 1) := by
          rw [← probeWidth_of_interface hItf]
          omega
        obtain ⟨hSound, hOthers⟩ := ih (hl.assign hCore hFree (by omega) hPos) h
        refine ⟨hSound, fun i hi => ?_⟩
        rw [hOthers i hi, Layout.order_assign_of_ne hi]

/-- Unpacking words keeps the layout sound, and interfaces that are not native own what they owned. -/
theorem placeAll_sound {s : Subsystem} {is : List Nat} (hIs : ∀ i ∈ is, i < interfaceCount)
    {l l' : Layout} (hl : l.Sound s) (h : (s.placeAll is l).result = .ok (some l')) :
    l'.Sound s ∧ ∀ i : Nat, s.nativeCount ≤ i → l'.order[i]? = l.order[i]? := by
  induction is generalizing l with
  | nil =>
    cases h
    exact ⟨hl, fun _ _ => rfl⟩
  | cons core rest ih =>
    have hRest : ∀ i ∈ rest, i < interfaceCount := fun i hi => hIs i (List.mem_cons_of_mem _ hi)
    rw [placeAll] at h
    obtain ⟨itf, -, h⟩ := Run.result_bind_eq_ok.mp h
    dsimp only at h
    split at h
    · split at h
      · cases h
      · exact ih hRest hl h
    case isFalse hNative =>
      split at h
      · cases h
      · obtain ⟨placed, hPlaced, h⟩ := Run.result_bind_eq_ok.mp h
        split at h
        · cases h
        · obtain ⟨hSound, hOthers⟩ := place_sound (hIs core (List.mem_cons_self ..)) hl hPlaced
          obtain ⟨hSound', hOthers'⟩ := ih hRest hSound h
          refine ⟨hSound', fun i hi => ?_⟩
          rw [hOthers' i hi, hOthers i (by omega)]

theorem firstBare?_eq_none {l : Layout} {is : List Nat} (h : firstBare? l is = .ok none) :
    ∀ i ∈ is, ∃ order, l.order[i]? = some order ∧ order ≠ [] := by
  induction is with
  | nil => simp
  | cons i rest ih =>
    rw [firstBare?] at h
    split at h
    · cases h
    · cases h
    case h_3 order hne hOrder =>
      intro j hj
      rcases List.mem_cons.mp hj with rfl | hj
      · refine ⟨order, hOrder, ?_⟩
        rintro rfl
        exact hne rfl
      · exact ih h j hj

end Subsystem

/-! ## The layout of a subsystem -/

/-- A layout that fits the subsystem: sound, with all probes, some of them in every native interface
and none in any other. A subsystem that is a bridge only has no native interface. -/
structure Layout.Fits (s : Subsystem) (l : Layout) : Prop where
  sound  : l.Sound s
  count  : s.mode ≠ .bridge → l.order.flatten.length = s.probeCount
  native : ∀ i : Nat, (i : Int) < s.nativeCount → ∃ order, l.order[i]? = some order ∧ order ≠ []
  others : ∀ i : Nat, s.nativeCount ≤ i → i < interfaceCount → l.order[i]? = some []

theorem Layout.order_empty {i : Nat} (h : i < interfaceCount) : Layout.empty.order[i]? = some [] :=
  List.getElem?_replicate_of_lt h

@[simp] theorem Layout.owner?_empty (p : Nat) : Layout.empty.owner? p = none := by
  rw [owner?, empty, List.getElem?_replicate]
  split <;> rfl

/-- **A decoded layout fits the subsystem.** -/
theorem Subsystem.decodeLayout_fits {s : Subsystem} {l : Layout}
    (h : s.decodeLayout.result = .ok (some l)) : l.Fits s := by
  unfold decodeLayout at h
  rw [Run.result_lift_bind] at h
  obtain ⟨placed, hPlaced, h⟩ := Run.result_bind_eq_ok.mp h
  split at h
  · cases h
  split at h
  · cases h
  case isFalse hCount =>
    obtain ⟨bare, hBare, h⟩ := Run.result_bind_eq_ok.mp h
    rw [Run.result_ofExcept] at hBare
    split at h
    · cases h
    split at h
    · cases h
      obtain ⟨hSound, hOthers⟩ := placeAll_sound (fun i hi => List.mem_range.mp hi)
        (Layout.sound_empty s) hPlaced
      refine ⟨hSound, fun _ => ?_, ?_, ?_⟩
      · rw [← hSound.owned]
        omega
      · intro i hi
        exact firstBare?_eq_none hBare i (List.mem_range.mpr (by omega))
      · intro i hi hlt
        rw [hOthers i hi, Layout.order_empty hlt]
    · cases h

theorem Layout.empty_fits {s : Subsystem} (h : s.mode = .bridge) : Layout.empty.Fits s := by
  have hNone : s.nativeCount = 0 := by
    rw [Subsystem.nativeCount, h]
  refine ⟨Layout.sound_empty s, fun hne => absurd h hne, ?_, fun i _ hlt => Layout.order_empty hlt⟩
  intro i hi
  omega

end ProbeAtlas
