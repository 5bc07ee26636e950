import Mathlib.Algebra.Order.BigOperators.Group.List
import Mathlib.Algebra.Order.Group.Nat
import Mathlib.Logic.Relation
import ProbeAtlas.Proofs.FlatContents

/-!
# ProbeAtlas — recursive hierarchies

A hierarchy is recursive if some module at or below the top lies below itself. Such a hierarchy has
instances of every depth, so no flattening can come to an end with all of them in the top: a search that
is done has found finitely many instances (`Elaboration.Covers.not_recursive`).

Flattening notices a recursion by the depth of nesting, unless the module that lies below itself is the
top. Then it comes upon a cell of the top, whose contents would have to be copied into the top while they
grow. This goes on for ever, or there is nothing left to copy, and then the recursion passes unnoticed.

Where flattening does not finish, the search behind it has stopped at a cell that is to be expanded
(`Design.flatten_stuck`), so whatever a search knows about its cells is known of that cell.

Main results:

* `Design.flatten_recursion` — the levels end; a recursive hierarchy is refused, unless the recursion is
  through the top, and then the three cases above are all there are.
* `selfDesign_accepted` — a top below itself may pass as flat.
-/

namespace ProbeAtlas

namespace Design

-- ---------------------------------------------------------------------------
-- Modules below modules
-- ---------------------------------------------------------------------------

/-- The module has a cell of the other one, whose contents are known. -/
def Contains (d : Design) (m below : Module) : Prop :=
  ∃ c ∈ m.cells, d.expandable? c.type = some below

/-- The module lies somewhere below the other one. -/
def Below (d : Design) (m above : Module) : Prop :=
  Relation.TransGen d.Contains above m

/-- Some module at or below the top lies below itself. -/
def Recursive (d : Design) (top : Module) : Prop :=
  ∃ m, Relation.ReflTransGen d.Contains top m ∧ d.Below m m

section Recursive

variable {d : Design} {top m below : Module} {p : InstancePath}

theorem Reaches.reflTransGen (h : d.Reaches top p m) : Relation.ReflTransGen d.Contains top m := by
  induction h with
  | root => exact .refl
  | child _ hCell hBelow ih => exact ih.tail ⟨_, List.mem_of_getElem? hCell, hBelow⟩

theorem Contains.exists_step (h : d.Contains m below) (hReaches : d.Reaches top p m) :
    ∃ step, d.Reaches top (p ++ [step]) below := by
  obtain ⟨c, hc, hBelow⟩ := h
  obtain ⟨i, hi⟩ := List.getElem?_of_mem hc
  exact ⟨(c, i), .child hReaches hi hBelow⟩

theorem exists_reaches (h : Relation.ReflTransGen d.Contains top m) : ∃ p, d.Reaches top p m := by
  induction h with
  | refl => exact ⟨[], .root⟩
  | tail _ hStep ih =>
    obtain ⟨p, hp⟩ := ih
    obtain ⟨step, hReaches⟩ := hStep.exists_step hp
    exact ⟨_, hReaches⟩

/-- Below an instance there are deeper instances of all modules that lie below its module. -/
theorem Below.exists_deeper (h : d.Below below m) (hReaches : d.Reaches top p m) :
    ∃ q, d.Reaches top q below ∧ p.length < q.length := by
  induction h with
  | single hStep =>
    obtain ⟨step, hDeeper⟩ := hStep.exists_step hReaches
    exact ⟨_, hDeeper, by simp⟩
  | tail _ hStep ih =>
    obtain ⟨q, hq, hLength⟩ := ih
    obtain ⟨step, hDeeper⟩ := hStep.exists_step hq
    refine ⟨_, hDeeper, ?_⟩
    rw [List.length_append]
    omega

/-- **A recursive hierarchy has instances of every depth.** -/
theorem Recursive.exists_deep (h : d.Recursive top) (n : Nat) :
    ∃ p m, d.Reaches top p m ∧ n ≤ p.length := by
  obtain ⟨m, hm, hLoop⟩ := h
  have hDeep : ∃ p, d.Reaches top p m ∧ n ≤ p.length := by
    induction n with
    | zero =>
      obtain ⟨p, hp⟩ := exists_reaches hm
      exact ⟨p, hp, Nat.zero_le _⟩
    | succ n ih =>
      obtain ⟨p, hp, hLength⟩ := ih
      obtain ⟨q, hq, hDeeper⟩ := hLoop.exists_deeper hp
      exact ⟨q, hq, by omega⟩
  obtain ⟨p, hp, hLength⟩ := hDeep
  exact ⟨p, m, hp, hLength⟩

/-- A hierarchy is not recursive if some number decreases from a module to those that it contains. -/
theorem not_recursive_of_rank (rank : Module → Nat) (hTop : d.topModule? = some top)
    (h : ∀ m ∈ d.modules, ∀ c ∈ m.cells, ∀ below, d.expandable? c.type = some below →
      rank below < rank m) : ¬d.Recursive top := by
  have hMem : ∀ m, Relation.ReflTransGen d.Contains top m → m ∈ d.modules := by
    intro m hm
    obtain ⟨p, hp⟩ := exists_reaches hm
    exact hp.mem_modules_of_top hTop
  rintro ⟨m, hm, hLoop⟩
  have hLess : ∀ below, d.Below below m → rank below < rank m := by
    intro below hBelow
    induction hBelow with
    | single hStep =>
      obtain ⟨c, hc, hBelow⟩ := hStep
      exact h m (hMem m hm) c hc _ hBelow
    | @tail mid below hMid hStep ih =>
      obtain ⟨c, hc, hBelow⟩ := hStep
      have := h mid (hMem mid (hm.trans hMid.to_reflTransGen)) c hc _ hBelow
      omega
  exact Nat.lt_irrefl _ (hLess m hLoop)

end Recursive

end Design

/-- **A search that is done has searched no recursive hierarchy.** -/
theorem Elaboration.Covers.not_recursive {d : Design} {top : Module} {g : Elaboration}
    (h : g.Covers d top []) (hNext : g.next = []) : ¬d.Recursive top := by
  intro hRecursive
  obtain ⟨p, m, hp, hLength⟩ := hRecursive.exists_deep ((g.scopes.map fun e => e.1.length).sum + 1)
  have hMem : p.length ∈ g.scopes.map fun e => e.1.length :=
    List.mem_map.mpr ⟨(p, m), h.mem_scopes_of_done hNext hp, rfl⟩
  have hBound := List.le_sum_of_mem hMem
  omega

namespace Design

-- ---------------------------------------------------------------------------
-- Where flattening stops
-- ---------------------------------------------------------------------------

/-- The cell cannot be expanded: it lies too deep, or its contents are those of the top itself. -/
def Refuses (d : Design) (top : Module) (s : Flat) (c : Cell) (impasse : Impasse Fault) : Prop :=
  ∃ child, d.expandable? c.type = some child ∧
    (d.modules.length < s.depthOf c.name ∧ impasse = .thrown (.recursive child.name) ∨
      child = top ∧ impasse = .endless top.name)

/-- A level that cannot be finished fails at its first cell or behind it. -/
theorem flattenLevel_cons_error {d : Design} {top : Module} (hTop : d.topModule? = some top) {c : Cell}
    {rest : List Cell} {s : Flat} {stuck : Stuck}
    (h : d.flattenLevel top.name (c :: rest) s = .error stuck) :
    (d.expandable? c.type = none ∧
      d.flattenLevel top.name rest { s with kept := s.kept.push c } = .error stuck) ∨
    (∃ child, d.expandable? c.type = some child ∧
      d.flattenLevel top.name rest (s.inline c child) = .error stuck) ∨
    d.Refuses top s c stuck.impasse := by
  rw [flattenLevel] at h
  split at h
  · next hNone => exact Or.inl ⟨hNone, h⟩
  · next child hChild =>
    split at h
    · next hDepth =>
      cases h
      exact Or.inr (Or.inr ⟨child, hChild, Or.inl ⟨hDepth, rfl⟩⟩)
    · split at h
      · next hName =>
        split at h
        · cases h
        · cases h
          have hSame := eq_top_of_expandable? hTop hChild hName
          exact Or.inr (Or.inr ⟨child, hChild, Or.inr ⟨hSame, by rw [hSame]⟩⟩)
      · exact Or.inr (Or.inl ⟨child, hChild, h⟩)

open Elaboration

section Stuck

variable {d : Design} {top : Module} {I : Elaboration → List Placement → List Cell → Flat → Prop}
  {g : Elaboration} {front : List Placement} {cells : List Cell} {s : Flat} {stuck : Stuck}

/-- The search has come to a cell that is refused. -/
def StuckAt (d : Design) (top : Module) (I : Elaboration → List Placement → List Cell → Flat → Prop)
    (impasse : Impasse Fault) : Prop :=
  ∃ g x front c cells s, Covers d top g (x :: front) ∧ I g (x :: front) (c :: cells) s ∧
    c.type = x.cell.type ∧ d.Refuses top s c impasse

theorem flattenLevel_stuck (hI : Follows d top I) (hTop : d.topModule? = some top)
    (h : d.flattenLevel top.name cells s = .error stuck) (hCovers : g.Covers d top front)
    (hStart : I g front cells s) : d.StuckAt top I stuck.impasse := by
  induction cells generalizing g front s with
  | nil => cases h
  | cons c rest ih =>
    obtain ⟨x, front, hType, -, rfl⟩ := List.forall₂_cons_right_iff.mp (hI.types hStart)
    rcases flattenLevel_cons_error hTop h with ⟨hNone, h⟩ | ⟨child, hChild, h⟩ | hRefuses
    · rw [hType] at hNone
      exact ih h (hCovers.keep hNone) (hI.keep hStart)
    · rw [hType] at hChild
      exact ih h (hCovers.expand hChild) (hI.inline hStart hCovers hChild)
    · exact ⟨g, x, front, c, rest, s, hCovers, hStart, hType, hRefuses⟩

theorem flattenLevels_stuck (hI : Follows d top I) (hTop : d.topModule? = some top) {fuel : Nat}
    (h : d.flattenLevels top.name fuel s = .error stuck) (hCovers : g.Covers d top [])
    (hStart : I g [] [] s) : d.StuckAt top I stuck.impasse := by
  induction fuel generalizing g s with
  | zero => cases h
  | succ fuel ih =>
    rw [flattenLevels] at h
    split at h
    · cases h
    · split at h
      · next hLevel =>
        cases h
        exact flattenLevel_stuck hI hTop hLevel hCovers.advance (hI.advance hStart)
      · next s₁ hLevel =>
        obtain ⟨g₁, front₁, cells₁, hCovers₁, hInv, hEnded⟩ :=
          flattenLevel_follows hI hTop hLevel hCovers.advance (hI.advance hStart)
        rcases hEnded with rfl | ⟨x, rfl, hLoop, hBare⟩
        · cases List.forall₂_nil_left_iff.mp (hI.types hInv)
          exact ih h hCovers₁ hInv
        · -- a bare top has no next level that could fail
          rw [flattenLevels_of_pending (Flat.isBare_iff.mp hBare).2.1] at h
          cases h

/-- **An impasse means that the search has come to a cell that is refused**, with all that it preserves. The
design is left without the mark of a flat one. -/
theorem flatten_stuck {left : Design} {impasse : Impasse Fault} (hTop : d.topModule? = some top)
    (h : d.flatten = (left, some impasse)) (hI : Follows d top I)
    (hStart : I (start top) [] [] (initialFlat top)) :
    d.StuckAt top I impasse ∧ left.flattened = d.flattened := by
  unfold flatten at h
  rw [hTop] at h
  dsimp only at h
  split at h
  · cases h
  · next stuck hStuck =>
    cases h
    exact ⟨flattenLevels_stuck hI hTop hStuck (covers_start d top) hStart, rfl⟩

end Stuck

-- ---------------------------------------------------------------------------
-- The outcomes
-- ---------------------------------------------------------------------------

/-- Further levels change nothing where the last level has left no cells. -/
theorem flattenLevels_add {d : Design} {top : String} {fuel : Nat} {s : Flat} (more : Nat)
    (hDone : ∀ s', d.flattenLevels top fuel s = .ok s' → s'.pending = #[]) :
    d.flattenLevels top (fuel + more) s = d.flattenLevels top fuel s := by
  induction fuel generalizing s with
  | zero =>
    have hNone := hDone s rfl
    rw [flattenLevels_of_pending hNone, flattenLevels_of_pending hNone]
  | succ fuel ih =>
    rw [Nat.succ_add, flattenLevels, flattenLevels]
    rw [flattenLevels] at hDone
    by_cases hNone : s.pending.isEmpty
    · rw [if_pos hNone, if_pos hNone]
    · rw [if_neg hNone] at hDone ⊢
      rw [if_neg hNone]
      cases hLevel : d.flattenLevel top s.pending.toList { s with pending := #[] } with
      | error stuck => rfl
      | ok s₁ =>
        rw [hLevel] at hDone
        exact ih hDone

theorem Below.of_covers {d : Design} {top m : Module} {g : Elaboration} {x : Placement}
    {front : List Placement} (h : g.Covers d top (x :: front)) (hm : d.expandable? x.cell.type = some m) :
    d.Below m top := by
  obtain ⟨parent, hParent, hCell⟩ := h.hasCell
  exact Relation.TransGen.tail' hParent.reflTransGen ⟨_, List.mem_of_getElem? hCell, hm⟩

/-- **The outcomes of flattening.** Only a top that lies below itself is copied without end, or passes
although the hierarchy is recursive, and then it is left with nothing in it. -/
theorem flatten_outcomes {d : Design} {top : Module} (hTop : d.topModule? = some top) :
    (∃ left name, d.flatten = (left, some (.thrown (.recursive name))) ∧ left.flattened = d.flattened) ∨
    (∃ left, d.flatten = (left, some (.endless top.name)) ∧ left.flattened = d.flattened ∧
      d.Below top top) ∨
    (d.flatten = (d.withContents top [] [], none) ∧ d.Below top top) ∨
    (∃ flat, d.flatten = (flat, none) ∧ ¬d.Recursive top) := by
  rcases hFlatten : d.flatten with ⟨left, outcome⟩
  cases outcome with
  | some impasse =>
    obtain ⟨⟨g, x, front, c, cells, s, hCovers, -, hType, child, hChild, hCause⟩, hMark⟩ :=
      flatten_stuck hTop hFlatten (follows_matches d top) ⟨[], matches_start d top⟩
    rcases hCause with ⟨-, rfl⟩ | ⟨rfl, rfl⟩
    · exact Or.inl ⟨left, child.name, rfl, hMark⟩
    · exact Or.inr (Or.inl ⟨left, rfl, hMark, Below.of_covers hCovers (hType ▸ hChild)⟩)
  | none =>
    obtain ⟨top', g, front, cells, s, hTop', hCovers, ⟨ledger, hMatches⟩, hEnded, hDone, rfl⟩ :=
      flatten_follows hFlatten (follows_matches d) fun top => ⟨[], matches_start d top⟩
    cases hTop.symm.trans hTop'
    rcases hEnded with rfl | ⟨x, rfl, hLoop, hBare⟩
    · have hPending := hMatches.pending
      rw [hDone] at hPending
      have hNext := List.forall₂_nil_right_iff.mp hPending
      exact Or.inr (Or.inr (Or.inr ⟨_, rfl, hCovers.not_recursive hNext⟩))
    · obtain ⟨hKept, hPending, hNames⟩ := Flat.isBare_iff.mp hBare
      refine Or.inr (Or.inr (Or.inl ⟨?_, Below.of_covers hCovers hLoop⟩))
      rw [Flat.cells, hKept, hPending, hNames]
      rfl

/-- **Recursion and flattening.** More levels than the bound would change nothing. A recursive hierarchy is
refused, and the design is not marked as flat, unless the top lies below itself. In that case flattening
finds a recursion, or copies the top into itself without end, or leaves a top with nothing in it that counts
as flat. In no other case does it copy without end. -/
theorem flatten_recursion {d : Design} {top : Module} (hTop : d.topModule? = some top) :
    (∀ more, d.flattenLevels top.name (d.modules.length + 1 + more) (initialFlat top) =
      d.flattenLevels top.name (d.modules.length + 1) (initialFlat top)) ∧
    (d.Recursive top → ¬d.Below top top → ∃ left name,
      d.flatten = (left, some (.thrown (.recursive name))) ∧ left.flattened = d.flattened) ∧
    (d.Below top top →
      (∃ left name, d.flatten = (left, some (.thrown (.recursive name))) ∧ left.flattened = d.flattened) ∨
      (∃ left, d.flatten = (left, some (.endless top.name)) ∧ left.flattened = d.flattened) ∨
      d.flatten = (d.withContents top [] [], none)) ∧
    (∀ left name, d.flatten = (left, some (.endless name)) → name = top.name ∧ d.Below top top) := by
  refine ⟨fun more => flattenLevels_add more fun s => flattenLevels_initialFlat, ?_, ?_, ?_⟩
  · intro hRecursive hApart
    rcases flatten_outcomes hTop with hRefused | ⟨-, -, -, hBelow⟩ | ⟨-, hBelow⟩ | ⟨-, -, hNot⟩
    · exact hRefused
    · exact absurd hBelow hApart
    · exact absurd hBelow hApart
    · exact absurd hRecursive hNot
  · intro hBelow
    rcases flatten_outcomes hTop with hRefused | ⟨left, hEndless, hMark, -⟩ | ⟨hBare, -⟩ | ⟨-, -, hNot⟩
    · exact Or.inl hRefused
    · exact Or.inr (Or.inl ⟨left, hEndless, hMark⟩)
    · exact Or.inr (Or.inr hBare)
    · exact absurd ⟨top, .refl, hBelow⟩ hNot
  · intro left name hFlatten
    rcases flatten_outcomes hTop with ⟨_, _, hOther, -⟩ | ⟨_, hOther, -, hBelow⟩ | ⟨hOther, -⟩ |
      ⟨_, hOther, -⟩
    · cases hFlatten.symm.trans hOther
    · cases hFlatten.symm.trans hOther
      exact ⟨rfl, hBelow⟩
    · cases hFlatten.symm.trans hOther
    · cases hFlatten.symm.trans hOther

end Design

/-! ## Two recursions -/

/-- A module with cells and net names only. -/
def plainModule (name : String) (cells : List Cell) (netnames : List NetName) : Module :=
  { name, attributes := [], parameters := [], ports := [], cells, netnames, blackbox := false }

/-- A module that holds itself, below the top. -/
def loopDesign : Design :=
  { modules := [plainModule "top" [⟨"u", "r", []⟩] [], plainModule "r" [⟨"u", "r", []⟩] []]
    top := some "top"
    flattened := false }

theorem loopDesign_below {m above : Module} (h : loopDesign.Below m above)
    (hCells : above.cells = [⟨"u", "r", []⟩]) : m = plainModule "r" [⟨"u", "r", []⟩] [] := by
  have hStep : ∀ {m below : Module}, m.cells = [⟨"u", "r", []⟩] → loopDesign.Contains m below →
      below = plainModule "r" [⟨"u", "r", []⟩] [] := by
    rintro m below hm ⟨c, hc, hBelow⟩
    rw [hm, List.mem_singleton] at hc
    rw [hc] at hBelow
    exact (Option.some.inj hBelow).symm
  induction h with
  | single h => exact hStep hCells h
  | tail _ h ih => exact hStep (by rw [ih]; rfl) h

/-- The recursion below the top is refused. -/
theorem loopDesign_refused : ∃ top, loopDesign.topModule? = some top ∧ loopDesign.Recursive top ∧
    ¬loopDesign.Below top top ∧
      ∃ left name, loopDesign.flatten = (left, some (.thrown (.recursive name))) ∧ left.flattened = false := by
  have hApart : ¬loopDesign.Below (plainModule "top" [⟨"u", "r", []⟩] [])
      (plainModule "top" [⟨"u", "r", []⟩] []) :=
    fun h => absurd (loopDesign_below h rfl) (by decide)
  have hRecursive : loopDesign.Recursive (plainModule "top" [⟨"u", "r", []⟩] []) :=
    ⟨plainModule "r" [⟨"u", "r", []⟩] [], .single ⟨_, List.mem_singleton_self _, rfl⟩,
      .single ⟨_, List.mem_singleton_self _, rfl⟩⟩
  have hTop : loopDesign.topModule? = some (plainModule "top" [⟨"u", "r", []⟩] []) := rfl
  exact ⟨_, hTop, hRecursive, hApart, (Design.flatten_recursion hTop).2.1 hRecursive hApart⟩

/-- A top that holds itself, under some net names. -/
def selfDesign (netnames : List NetName) : Design :=
  { modules := [plainModule "top" [⟨"u", "top", []⟩] netnames], top := some "top", flattened := false }

/-- A top that holds nothing but itself passes as flat, and with a net name it is copied without end. -/
theorem selfDesign_accepted :
    (∃ top, (selfDesign []).topModule? = some top ∧ (selfDesign []).Recursive top) ∧
      (selfDesign []).flatten.2 = none ∧ (selfDesign []).flatten.1.flattened = true ∧
      (selfDesign [⟨"n", [.net 2], false, false⟩]).flatten.2 = some (.endless "top") := by
  have hSelf : (selfDesign []).Contains (plainModule "top" [⟨"u", "top", []⟩] [])
      (plainModule "top" [⟨"u", "top", []⟩] []) := ⟨_, List.mem_singleton_self _, rfl⟩
  exact ⟨⟨_, rfl, _, .refl, .single hSelf⟩, by decide +kernel, by decide +kernel, by decide +kernel⟩

end ProbeAtlas
