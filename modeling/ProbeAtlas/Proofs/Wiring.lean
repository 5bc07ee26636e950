import Mathlib.Algebra.BigOperators.Group.List.Basic
import Mathlib.Algebra.Ring.Nat
import ProbeAtlas.Debug.Wiring
import ProbeAtlas.Proofs.Outcome

/-!
# ProbeAtlas — the signals that wiring attaches

The fragments of a connection carry one bit for every bit of the connection, however they are grouped
(`Module.totalWidth_fragments`), and no fragment is empty. So a probe is wired exactly when its port
is connected to as many bits as the probe is wide, and the signal of a native core is the
concatenation of the signals of its probes.

Main result: `Bench.wire_passed` — after a passing wiring there is one cell of the instantiator, and
every core carries the signal read off that cell.
-/

namespace ProbeAtlas

/-! ## Widths of fragments -/

namespace Fragment

@[simp] theorem totalWidth_nil : totalWidth [] = 0 := rfl

@[simp] theorem totalWidth_cons (f : Fragment) (fs : List Fragment) :
    totalWidth (f :: fs) = f.width + totalWidth fs := rfl

@[simp] theorem totalWidth_append (fs gs : List Fragment) :
    totalWidth (fs ++ gs) = totalWidth fs + totalWidth gs := by
  induction fs with
  | nil => simp
  | cons f fs ih =>
    rw [List.cons_append, totalWidth_cons, ih, totalWidth_cons, Nat.add_assoc]

theorem totalWidth_flatMap {α : Type} (xs : List α) (f : α → List Fragment) :
    totalWidth (xs.flatMap f) = (xs.map fun x => totalWidth (f x)).sum := by
  induction xs with
  | nil => rfl
  | cons x xs ih => rw [List.flatMap_cons, totalWidth_append, ih, List.map_cons, List.sum_cons]

end Fragment

namespace Module

theorem units16_level (level : Level) (bits : List Char) :
    units16 (level.char :: bits) = units16 bits + 1 := by
  rw [units16_cons, Nat.add_comm]
  cases level <;> rfl

/-- The next bit begins a fragment of its own or widens the last one by one bit. -/
theorem addBit_cases (names : BitNames) (fs : List Fragment) (b : Bit) :
    (∃ f, addBit names fs b = f :: fs ∧ f.width = 1) ∨
      ∃ f f' rest, fs = f :: rest ∧ addBit names fs b = f' :: rest ∧ f'.width = f.width + 1 := by
  cases b with
  | const level =>
    rcases fs with _ | ⟨bits | s, rest⟩
    · exact Or.inl ⟨_, rfl, units16_level level []⟩
    · exact Or.inr ⟨_, _, _, rfl, rfl, units16_level level bits⟩
    · exact Or.inl ⟨_, rfl, units16_level level []⟩
  | net id =>
    rw [addBit.eq_def]
    dsimp only
    cases names.get? id with
    | none => exact Or.inl ⟨_, rfl, rfl⟩
    | some b =>
      rcases fs with _ | ⟨bits | s, rest⟩
      · exact Or.inl ⟨_, rfl, rfl⟩
      · exact Or.inl ⟨_, rfl, rfl⟩
      · by_cases hNext : continues s b = true
        · exact Or.inr ⟨_, _, _, rfl, if_pos hNext, rfl⟩
        · exact Or.inl ⟨_, if_neg hNext, rfl⟩

/-- **Fragments carry one bit for every bit of the connection.** -/
theorem totalWidth_fragments (m : Module) (bits : List Bit) :
    Fragment.totalWidth (m.fragments bits) = bits.length := by
  have hFrom : ∀ fs, Fragment.totalWidth (bits.foldl (addBit m.bitNames) fs) =
      Fragment.totalWidth fs + bits.length := by
    induction bits with
    | nil => simp
    | cons b bs ih =>
      intro fs
      rw [List.foldl_cons, ih, List.length_cons]
      obtain ⟨f, hAdd, hWidth⟩ | ⟨f, f', rest, rfl, hAdd, hWidth⟩ := addBit_cases m.bitNames fs b
      · rw [hAdd, Fragment.totalWidth_cons]
        omega
      · rw [hAdd, Fragment.totalWidth_cons, Fragment.totalWidth_cons]
        omega
  rw [fragments, hFrom, Fragment.totalWidth_nil, Nat.zero_add]

theorem width_pos_of_mem_fragments {m : Module} {bits : List Bit} {f : Fragment}
    (hf : f ∈ m.fragments bits) : 0 < f.width := by
  have hFrom : ∀ fs : List Fragment, (∀ g ∈ fs, 0 < g.width) →
      ∀ g ∈ bits.foldl (addBit m.bitNames) fs, 0 < g.width := by
    clear hf
    induction bits with
    | nil => exact fun fs h => h
    | cons b bs ih =>
      intro fs h
      refine ih _ ?_
      obtain ⟨g, hAdd, hWidth⟩ | ⟨g, g', rest, rfl, hAdd, hWidth⟩ := addBit_cases m.bitNames fs b
      · rw [hAdd]
        exact List.forall_mem_cons.mpr ⟨by omega, h⟩
      · rw [hAdd]
        exact List.forall_mem_cons.mpr ⟨by omega, (List.forall_mem_cons.mp h).2⟩
  exact hFrom [] (by simp) f hf

end Module

/-! ## Probes -/

namespace Site

/-- The signal of a probe: what its port is connected to. -/
def signal (site : Site) (probe : Nat) : List Fragment :=
  ((site.cell.connection? (site.rules.portOf probe)).map site.top.fragments).getD []

/-- The port of the probe is connected to as many bits as the probe is wide. -/
def Connected (site : Site) (probe : Nat) : Prop :=
  ∃ bits, site.cell.connection? (site.rules.portOf probe) = some bits ∧
    Subsystem.widthOf site.subsystem probe = .ok bits.length

theorem signal_of_connection {site : Site} {probe : Nat} {bits : List Bit}
    (h : site.cell.connection? (site.rules.portOf probe) = some bits) :
    site.signal probe = site.top.fragments bits := by
  rw [signal, h, Option.map_some, Option.getD_some]

theorem wireProbe_passed {site : Site} {core : String} {probe : Nat} {found : List Fragment}
    (h : (site.wireProbe core probe).result = .ok (found, true)) :
    site.Connected probe ∧ found = site.signal probe := by
  unfold wireProbe at h
  dsimp only at h
  split at h
  · cases h
  next bits hBits =>
    rw [Run.result_lift_bind] at h
    split at h
    · cases h
    · rw [Run.result_lift_bind] at h
      obtain ⟨width, hWidth, h⟩ := Run.result_bind_eq_ok.mp h
      rw [Run.result_ofExcept] at hWidth
      split at h
      · next hEq =>
        cases h
        rw [← hEq, Module.totalWidth_fragments] at hWidth
        exact ⟨⟨bits, hBits, hWidth⟩, (signal_of_connection hBits).symm⟩
      · cases h

theorem wireProbes_passed {site : Site} {core : String} {probes : List Nat} {found : List Fragment}
    (h : (site.wireProbes core probes).result = .ok (found, true)) :
    (∀ p ∈ probes, site.Connected p) ∧ found = probes.flatMap site.signal := by
  induction probes generalizing found with
  | nil =>
    cases h
    exact ⟨by simp, rfl⟩
  | cons p ps ih =>
    rw [wireProbes] at h
    obtain ⟨⟨first, ok⟩, hFirst, h⟩ := Run.result_bind_eq_ok.mp h
    obtain ⟨⟨more, okMore⟩, hMore, h⟩ := Run.result_bind_eq_ok.mp h
    obtain ⟨rfl, hOk⟩ := Prod.mk.inj (Except.ok.inj h)
    obtain ⟨rfl, rfl⟩ := Bool.and_eq_true_iff.mp hOk
    obtain ⟨hConnected, rfl⟩ := wireProbe_passed hFirst
    obtain ⟨hRest, rfl⟩ := ih hMore
    exact ⟨List.forall_mem_cons.mpr ⟨hConnected, hRest⟩, (List.flatMap_cons ..).symm⟩

/-- The signal of a native core is that of its probes, the most significant probe first. -/
theorem wireCore_native {site : Site} {c : Core} {found : List Fragment}
    (hNative : c.isBridge = false) (h : (site.wireCore c).result = .ok (found, true)) :
    (∀ p ∈ c.probeOrder, site.Connected p) ∧ found = c.probeOrder.reverse.flatMap site.signal := by
  unfold wireCore at h
  rw [hNative, if_neg (by decide)] at h
  obtain ⟨hAll, hFound⟩ := wireProbes_passed h
  exact ⟨fun p hp => hAll p (List.mem_reverse.mpr hp), hFound⟩

/-! ## Cores -/

/-- The second core is the first one with the signal that the site gives it. -/
def Wires (site : Site) (c c' : Core) : Prop :=
  ∃ found, (site.wireCore c).result = .ok (found, true) ∧ c' = { c with probes := found }

/-- A native core that has been wired carries the signals of its probes. -/
theorem Wires.native {site : Site} {c c' : Core} (h : site.Wires c c')
    (hNative : c'.isBridge = false) : (∀ p ∈ c'.probeOrder, site.Connected p) ∧
      c'.probes = c'.probeOrder.reverse.flatMap site.signal := by
  obtain ⟨found, hRun, rfl⟩ := h
  exact wireCore_native hNative hRun

theorem wireCores_passed {site : Site} {cores : List Core}
    (h : (site.wireCores cores).result = .ok true) :
    List.Forall₂ site.Wires cores (site.wireCores cores).cores := by
  induction cores with
  | nil => exact .nil
  | cons c cs ih =>
    rw [wireCores] at h ⊢
    dsimp only at h ⊢
    cases hRun : (site.wireCore c).result with
    | error fault =>
      rw [hRun] at h
      cases h
    | ok wired =>
      obtain ⟨found, ok⟩ := wired
      rw [hRun] at h
      obtain ⟨okRest, hRest, hOk⟩ := except_map_eq_ok.mp h
      obtain ⟨rfl, rfl⟩ := Bool.and_eq_true_iff.mp hOk
      exact .cons ⟨found, hRun, rfl⟩ (ih hRest)

end Site

theorem wireAll_passed {subsystem : Option Subsystem} {cores : List Core} {top : Module}
    {instantiator : String} {rules : Rules}
    (h : (wireAll subsystem cores (some top) instantiator rules).result = .ok true) :
    ∃ cell, (top.cells.filter fun c => c.type == instantiator) = [cell] ∧
      List.Forall₂ (Site.Wires ⟨top, subsystem, rules, cell⟩) cores
        (wireAll subsystem cores (some top) instantiator rules).cores := by
  unfold wireAll at h ⊢
  dsimp only at h ⊢
  split at h
  · cases h
  · split at h
    · next cell hCell =>
      refine ⟨cell, hCell, ?_⟩
      split at h
      · cases h
      · next ok hWired =>
        obtain ⟨rfl, -⟩ := Bool.and_eq_true_iff.mp (Except.ok.inj h)
        exact Site.wireCores_passed hWired
    · cases h

/-- **After a passing wiring every core carries the signal read off the one instantiator cell.** -/
theorem Bench.wire_passed {b : Bench} {top : Module} {instantiator : String} {rules : Rules}
    (h : (b.wire (some top) instantiator rules).result = .ok true) :
    ∃ cell, (top.cells.filter fun c => c.type == instantiator) = [cell] ∧
      (b.wire (some top) instantiator rules).bench.subsystem = b.subsystem ∧
      List.Forall₂ (Site.Wires ⟨top, some b.subsystem, rules, cell⟩) b.cores
        (b.wire (some top) instantiator rules).bench.cores := by
  obtain ⟨cell, hCell, hCores⟩ := wireAll_passed h
  exact ⟨cell, hCell, rfl, hCores⟩

end ProbeAtlas
