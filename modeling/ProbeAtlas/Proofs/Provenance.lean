import Mathlib.Data.List.Forall2
import Mathlib.Logic.Relation
import ProbeAtlas.Netlist.Flatten
import ProbeAtlas.Proofs.Hierarchy

/-!
# ProbeAtlas — where the nets of inlined cells come from

A net of an instance is bound to a net of the instance above it if the two stand at the same position
of a port. Inlining renames the nets of a cell one by one, when they are first met: a bound net takes
over what stands beyond its port, any other gets a number from a counter. Nets that no chain of bindings
links must not end up with one number.

The proof keeps a ledger of the numbers handed out and of the nets that they were handed out for.
`Becomes` says what a bit of an instance may have become: a constant that it is tied to, or a number
whose first holder, in the ledger or in the top itself, it is linked to. A larger ledger makes no
difference to what is known already, so this is stable under everything that happens later.

Main result: `inlineCell_copies` — what takes the place of a cell is a copy of the contents of its
module in which every bit has become something that it may become.
-/

namespace ProbeAtlas

-- ---------------------------------------------------------------------------
-- Bound nets
-- ---------------------------------------------------------------------------

/-- A net of an instance. -/
abbrev Occurrence := InstancePath × Nat

namespace Design

/-- The net inside the instance that a cell makes, and the bit outside it, stand at one position of a
port. -/
def Joins (d : Design) (top : Module) (p : InstancePath) (step : Cell × Nat) (net : Nat) (b : Bit) :
    Prop :=
  ∃ (m below : Module) (name : String) (port : Port) (bits : List Bit) (k : Nat),
    d.Reaches top p m ∧ m.cells[step.2]? = some step.1 ∧
    d.expandable? step.1.type = some below ∧ (name, port) ∈ below.ports ∧
    step.1.connection? name = some bits ∧ port.bits[k]? = some (.net net) ∧ bits[k]? = some b

/-- Two nets stand at one position of a port. -/
inductive Bound (d : Design) (top : Module) : Occurrence → Occurrence → Prop
  | port {p : InstancePath} {step : Cell × Nat} {n m : Nat} :
      d.Joins top p step n (.net m) → Bound d top (p ++ [step], n) (p, m)

/-- A chain of bindings leads from one net to the other. -/
def Linked (d : Design) (top : Module) : Occurrence → Occurrence → Prop :=
  Relation.EqvGen (d.Bound top)

/-- A chain of bindings leads from the net to a port whose bit outside is the constant. -/
def TiedTo (d : Design) (top : Module) (o : Occurrence) (level : Level) : Prop :=
  ∃ p step n, d.Linked top o (p ++ [step], n) ∧ d.Joins top p step n (.const level)

end Design

-- ---------------------------------------------------------------------------
-- The ledger
-- ---------------------------------------------------------------------------

/-- The nets that a number was handed out for. -/
abbrev Ledger := List (Occurrence × Nat)

/-- The numbers were handed out by a counter that began at `base`. Below the bound of exact numbers
none was handed out twice. -/
structure Ledger.Fresh (ledger : Ledger) (base counter : Nat) : Prop where
  base_le : base ≤ counter
  le      : ∀ o id, (o, id) ∈ ledger → id ≤ counter
  above   : ∀ o id, (o, id) ∈ ledger → id < exactBound → base < id
  unique  : ∀ o o' id, (o, id) ∈ ledger → (o', id) ∈ ledger → id < exactBound → o = o'

theorem Ledger.Fresh.push {ledger : Ledger} {base counter : Nat} (h : ledger.Fresh base counter)
    (o : Occurrence) : Ledger.Fresh ((o, nextNet counter) :: ledger) base (nextNet counter) := by
  have hMono := le_nextNet counter
  have hStep : nextNet counter < exactBound → nextNet counter = counter + 1 := fun hExact =>
    nextNet_of_lt (by omega)
  refine ⟨Nat.le_trans h.base_le hMono, ?_, ?_, ?_⟩
  · intro o' id hMem
    rcases List.mem_cons.mp hMem with hEq | hMem
    · cases hEq
      exact Nat.le_refl _
    · exact Nat.le_trans (h.le o' id hMem) hMono
  · intro o' id hMem hExact
    rcases List.mem_cons.mp hMem with hEq | hMem
    · cases hEq
      have := hStep hExact
      have := h.base_le
      omega
    · exact h.above o' id hMem hExact
  · intro o₁ o₂ id hMem₁ hMem₂ hExact
    rcases List.mem_cons.mp hMem₁ with hEq₁ | hMem₁ <;> rcases List.mem_cons.mp hMem₂ with hEq₂ | hMem₂
    · rw [(Prod.mk.inj hEq₁).1, (Prod.mk.inj hEq₂).1]
    · have := h.le o₂ id hMem₂
      have := (Prod.mk.inj hEq₁).2
      have := hStep (this ▸ hExact)
      omega
    · have := h.le o₁ id hMem₁
      have := (Prod.mk.inj hEq₂).2
      have := hStep (this ▸ hExact)
      omega
    · exact h.unique o₁ o₂ id hMem₁ hMem₂ hExact

/-- The first holder of a number: a net of the top, or the net it was handed out for. -/
def Ledger.Source (ledger : Ledger) (base : Nat) (o : Occurrence) (id : Nat) : Prop :=
  (o = ([], id) ∧ id ≤ base) ∨ (o, id) ∈ ledger

/-- **A number has one first holder.** -/
theorem Ledger.Fresh.source_unique {ledger : Ledger} {base counter id : Nat} {o o' : Occurrence}
    (h : ledger.Fresh base counter) (hExact : id < exactBound) (ho : ledger.Source base o id)
    (ho' : ledger.Source base o' id) : o = o' := by
  rcases ho with ⟨rfl, hLe⟩ | hMem <;> rcases ho' with ⟨rfl, hLe'⟩ | hMem'
  · rfl
  · have := h.above o' id hMem' hExact
    omega
  · have := h.above o id hMem hExact
    omega
  · exact h.unique o o' id hMem hMem' hExact

-- ---------------------------------------------------------------------------
-- What a bit may become
-- ---------------------------------------------------------------------------

/-- In the flat top, the bit of the instance may have become the second one. -/
inductive Becomes (d : Design) (top : Module) (ledger : Ledger) (p : InstancePath) : Bit → Bit → Prop
  | const (level : Level) : Becomes d top ledger p (.const level) (.const level)
  | tied {n : Nat} {level : Level} : d.TiedTo top (p, n) level →
      Becomes d top ledger p (.net n) (.const level)
  | net {n id : Nat} {o : Occurrence} : d.Linked top (p, n) o →
      ledger.Source (Design.maxNet top) o id → Becomes d top ledger p (.net n) (.net id)

namespace Becomes

variable {d : Design} {top : Module} {ledger ledger' : Ledger} {p : InstancePath} {b b' : Bit}

theorem mono (hSub : ledger ⊆ ledger') (h : Becomes d top ledger p b b') :
    Becomes d top ledger' p b b' := by
  cases h with
  | const level => exact .const level
  | tied hTied => exact .tied hTied
  | net hLinked hSource => exact .net hLinked (hSource.imp id fun hMem => hSub hMem)

/-- A net becomes whatever the bit beyond its port has become. -/
theorem through {step : Cell × Nat} {n : Nat} (hJoins : d.Joins top p step n b)
    (h : Becomes d top ledger p b b') : Becomes d top ledger (p ++ [step]) (.net n) b' := by
  cases h with
  | const level => exact .tied ⟨p, step, n, .refl _, hJoins⟩
  | tied hTied =>
    obtain ⟨p', step', n', hLinked, hJoins'⟩ := hTied
    exact .tied ⟨p', step', n', .trans _ _ _ (.rel _ _ (.port hJoins)) hLinked, hJoins'⟩
  | net hLinked hSource => exact .net (.trans _ _ _ (.rel _ _ (.port hJoins)) hLinked) hSource

/-- A net of the top stays what it is. -/
theorem root {n : Nat} (h : n ≤ Design.maxNet top) : Becomes d top ledger [] (.net n) (.net n) :=
  .net (.refl _) (Or.inl ⟨rfl, h⟩)

end Becomes

-- ---------------------------------------------------------------------------
-- Renaming
-- ---------------------------------------------------------------------------

namespace Renaming

theorem lookup_set (r : Renaming) (id n : Nat) (b : Option Bit) :
    (r.set id b).known.lookup n = if n = id then some b else r.known.lookup n := by
  rw [set, List.lookup_cons]
  by_cases hn : n = id
  · rw [if_pos hn, hn, beq_self_eq_true]
  · rw [if_neg hn, beq_false_of_ne hn]

theorem get?_set (r : Renaming) (id n : Nat) (b : Option Bit) :
    (r.set id b).get? n = if n = id then b else r.get? n := by
  rw [get?, lookup_set, get?]
  split <;> rfl

theorem get?_setFresh (r : Renaming) (id n : Nat) :
    (r.setFresh id).get? n = if n = id then some (.net (nextNet r.counter)) else r.get? n :=
  get?_set r id n _

/-- The decisions about the nets of an instance are ones that may be made. -/
structure Tracks (d : Design) (top : Module) (p : InstancePath) (ledger : Ledger) (r : Renaming) :
    Prop where
  known : ∀ n b, r.get? n = some b → Becomes d top ledger p (.net n) b
  fresh : ledger.Fresh (Design.maxNet top) r.counter

variable {d : Design} {top : Module} {p : InstancePath} {ledger : Ledger} {r : Renaming}

theorem Tracks.set (h : r.Tracks d top p ledger) {id : Nat} {b : Option Bit}
    (hb : ∀ b', b = some b' → Becomes d top ledger p (.net id) b') :
    (r.set id b).Tracks d top p ledger := by
  refine ⟨fun n b' hn => ?_, h.fresh⟩
  rw [get?_set] at hn
  split at hn
  · next hEq => exact hEq ▸ hb b' hn
  · exact h.known n b' hn

theorem Tracks.setFresh (h : r.Tracks d top p ledger) (id : Nat) :
    (r.setFresh id).Tracks d top p (((p, id), nextNet r.counter) :: ledger) := by
  refine ⟨fun n b' hn => ?_, h.fresh.push _⟩
  rw [get?_setFresh] at hn
  split at hn
  · next hEq =>
    cases hn
    exact hEq ▸ .net (.refl _) (Or.inr (List.mem_cons_self ..))
  · exact (h.known n b' hn).mono (List.subset_cons_self ..)

/-! ## Ports -/

/-- Deciding about a port: where there is a bit outside, it is one that the net inside may become. -/
theorem Tracks.bindPort {inner : List Bit} {outer : List (Option Bit)}
    (h : r.Tracks d top p ledger)
    (hOuter : ∀ (k n : Nat) b, inner[k]? = some (.net n) → outer[k]? = some (some b) →
      Becomes d top ledger p (.net n) b) :
    ∃ ledger', ledger ⊆ ledger' ∧ (r.bindPort inner outer).Tracks d top p ledger' := by
  induction inner generalizing r outer ledger with
  | nil => exact ⟨ledger, List.Subset.refl _, h⟩
  | cons bit inner ih =>
    have hTail : ∀ (k n : Nat) b, inner[k]? = some (.net n) → outer.tail[k]? = some (some b) →
        Becomes d top ledger p (.net n) b := by
      intro k n b hInner hTail
      refine hOuter (k + 1) n b hInner ?_
      rw [← List.getElem?_tail]
      exact hTail
    cases bit with
    | const level => exact ih h hTail
    | net id =>
      rw [Renaming.bindPort.eq_def]
      dsimp only
      split
      · exact ih h hTail
      · rcases outer with _ | ⟨b, rest⟩
        · -- no bit outside: the net gets a number of its own
          have hNone : ∀ (k n : Nat) b, inner[k]? = some (.net n) →
              ([] : List (Option Bit))[k]? = some (some b) →
              Becomes d top (((p, id), nextNet r.counter) :: ledger) p (.net n) b := by simp
          obtain ⟨ledger', hSub, hTracks⟩ := ih (h.setFresh id) hNone
          exact ⟨ledger', fun e he => hSub (List.mem_cons_of_mem _ he), hTracks⟩
        · refine ih (h.set fun b' hb => ?_) hTail
          exact hOuter 0 id b' rfl (congrArg some hb)

theorem Tracks.bindPorts {connections : List (String × List Bit)} {ports : List (String × Port)}
    (h : r.Tracks d top p ledger)
    (hOuter : ∀ name port, (name, port) ∈ ports → ∀ (k n : Nat) b, port.bits[k]? = some (.net n) →
      (outerBits connections name)[k]? = some (some b) → Becomes d top ledger p (.net n) b) :
    ∃ ledger', ledger ⊆ ledger' ∧ (r.bindPorts connections ports).Tracks d top p ledger' := by
  induction ports generalizing r ledger with
  | nil => exact ⟨ledger, List.Subset.refl _, h⟩
  | cons first rest ih =>
    obtain ⟨name, port⟩ := first
    obtain ⟨ledger₁, hSub₁, h₁⟩ := h.bindPort (hOuter name port (List.mem_cons_self ..))
    obtain ⟨ledger₂, hSub₂, h₂⟩ := ih h₁ fun name' port' hMem k n b hInner hBit =>
      (hOuter name' port' (List.mem_cons_of_mem _ hMem) k n b hInner hBit).mono hSub₁
    exact ⟨ledger₂, List.Subset.trans hSub₁ hSub₂, h₂⟩

/-! ## Contents -/

/-- What is shown for one thing holds for a list of them that is renamed from front to back. -/
theorem Tracks.traverse {α β : Type} (f : Renaming → α → β × Renaming)
    (fs : Renaming → List α → List β × Renaming) (R : Ledger → α → β → Prop)
    (hNil : ∀ r, fs r [] = ([], r))
    (hCons : ∀ r a as, fs r (a :: as) = ((f r a).1 :: (fs (f r a).2 as).1, (fs (f r a).2 as).2))
    (hMono : ∀ ledger ledger' a b, ledger ⊆ ledger' → R ledger a b → R ledger' a b)
    (hStep : ∀ r ledger a, Tracks d top p ledger r →
      ∃ ledger', ledger ⊆ ledger' ∧ Tracks d top p ledger' (f r a).2 ∧ R ledger' a (f r a).1)
    (as : List α) (h : r.Tracks d top p ledger) :
    ∃ ledger', ledger ⊆ ledger' ∧ Tracks d top p ledger' (fs r as).2 ∧
      List.Forall₂ (R ledger') as (fs r as).1 := by
  induction as generalizing r ledger with
  | nil =>
    rw [hNil]
    exact ⟨ledger, List.Subset.refl _, h, .nil⟩
  | cons a as ih =>
    obtain ⟨ledger₁, hSub₁, h₁, hFirst⟩ := hStep r ledger a h
    obtain ⟨ledger₂, hSub₂, h₂, hRest⟩ := ih h₁
    rw [hCons]
    exact ⟨ledger₂, List.Subset.trans hSub₁ hSub₂, h₂, .cons (hMono _ _ _ _ hSub₂ hFirst) hRest⟩

theorem Tracks.bit (h : r.Tracks d top p ledger) (b : Bit) :
    ∃ ledger', ledger ⊆ ledger' ∧ (r.bit b).2.Tracks d top p ledger' ∧
      Becomes d top ledger' p b (r.bit b).1 := by
  cases b with
  | const level => exact ⟨ledger, List.Subset.refl _, h, .const level⟩
  | net id =>
    cases hKnown : r.get? id with
    | some b =>
      have hBit : r.bit (.net id) = (b, r) := by rw [Renaming.bit, hKnown]
      rw [hBit]
      exact ⟨ledger, List.Subset.refl _, h, h.known id b hKnown⟩
    | none =>
      have hBit : r.bit (.net id) = (.net (nextNet r.counter), r.setFresh id) := by
        rw [Renaming.bit, hKnown]
      rw [hBit]
      exact ⟨_, List.subset_cons_self .., h.setFresh id, .net (.refl _) (Or.inr (List.mem_cons_self ..))⟩

theorem Tracks.bits (h : r.Tracks d top p ledger) (bs : List Bit) :
    ∃ ledger', ledger ⊆ ledger' ∧ (r.bits bs).2.Tracks d top p ledger' ∧
      List.Forall₂ (Becomes d top ledger' p) bs (r.bits bs).1 :=
  Tracks.traverse Renaming.bit Renaming.bits (fun ledger => Becomes d top ledger p) (fun _ => rfl)
    (fun _ _ _ => rfl) (fun _ _ _ _ hSub hb => hb.mono hSub) (fun _ _ b hr => hr.bit b) bs h

end Renaming

/-- A connection of a copied cell: the same port, and bits that the original bits may become. -/
def ConnectionCopy (d : Design) (top : Module) (ledger : Ledger) (p : InstancePath)
    (a a' : String × List Bit) : Prop :=
  a'.1 = a.1 ∧ List.Forall₂ (Becomes d top ledger p) a.2 a'.2

/-- A cell of the flat top that stands for a cell of an instance. -/
structure CellCopy (d : Design) (top : Module) (ledger : Ledger) (p : InstancePath) (c c' : Cell) :
    Prop where
  name        : c'.name = nameBelow p c.name
  type        : c'.type = c.type
  connections : List.Forall₂ (ConnectionCopy d top ledger p) c.connections c'.connections

/-- A net name of the flat top that stands for a net name of an instance. -/
structure NameCopy (d : Design) (top : Module) (ledger : Ledger) (p : InstancePath) (n n' : NetName) :
    Prop where
  name   : n'.name = nameBelow p n.name
  bits   : List.Forall₂ (Becomes d top ledger p) n.bits n'.bits
  hidden : n'.hidden = n.hidden
  upto   : n'.upto = n.upto

section Copies

variable {d : Design} {top : Module} {ledger ledger' : Ledger} {p : InstancePath}

theorem forall₂_becomes_mono (hSub : ledger ⊆ ledger') {bs bs' : List Bit}
    (h : List.Forall₂ (Becomes d top ledger p) bs bs') :
    List.Forall₂ (Becomes d top ledger' p) bs bs' :=
  h.imp fun _ _ hb => hb.mono hSub

theorem ConnectionCopy.mono (hSub : ledger ⊆ ledger') {a a' : String × List Bit}
    (h : ConnectionCopy d top ledger p a a') : ConnectionCopy d top ledger' p a a' :=
  ⟨h.1, forall₂_becomes_mono hSub h.2⟩

theorem CellCopy.mono (hSub : ledger ⊆ ledger') {c c' : Cell} (h : CellCopy d top ledger p c c') :
    CellCopy d top ledger' p c c' :=
  ⟨h.name, h.type, h.connections.imp fun _ _ ha => ha.mono hSub⟩

theorem NameCopy.mono (hSub : ledger ⊆ ledger') {n n' : NetName} (h : NameCopy d top ledger p n n') :
    NameCopy d top ledger' p n n' :=
  ⟨h.name, forall₂_becomes_mono hSub h.bits, h.hidden, h.upto⟩

/-- What a copied cell connects to a port is a copy of what the original connects to it. -/
theorem CellCopy.connection? {c c' : Cell} (h : CellCopy d top ledger p c c') {name : String}
    {bits' : List Bit} (hBits : Entries.get? c'.connections name = some bits') :
    ∃ bits, c.connection? name = some bits ∧ List.Forall₂ (Becomes d top ledger p) bits bits' := by
  have hGet : ∀ as as', List.Forall₂ (ConnectionCopy d top ledger p) as as' →
      Entries.get? as' name = some bits' → ∃ bits, Entries.get? as name = some bits ∧
        List.Forall₂ (Becomes d top ledger p) bits bits' := by
    intro as as' hAll hFind
    induction hAll with
    | nil => cases hFind
    | @cons a a' as as' hFirst _ ih =>
      unfold Entries.get? at hFind ih ⊢
      rw [List.find?_cons] at hFind ⊢
      rw [hFirst.1] at hFind
      split at hFind
      · cases hFind
        exact ⟨a.2, rfl, hFirst.2⟩
      · exact ih hFind
  exact hGet _ _ h.connections hBits

/-- A bit at a position of the copied list comes from the bit at that position. -/
theorem becomes_of_getElem? {bs bs' : List Bit} (h : List.Forall₂ (Becomes d top ledger p) bs bs')
    {k : Nat} {b' : Bit} (hk : bs'[k]? = some b') :
    ∃ b, bs[k]? = some b ∧ Becomes d top ledger p b b' := by
  obtain ⟨hLength, hAt⟩ := List.forall₂_iff_get.mp h
  obtain ⟨hlt, rfl⟩ := List.getElem?_eq_some_iff.mp hk
  exact ⟨_, List.getElem?_eq_getElem (hLength ▸ hlt), hAt k (hLength ▸ hlt) hlt⟩

end Copies

namespace Renaming

variable {d : Design} {top : Module} {ledger : Ledger} {p : InstancePath} {r : Renaming}

theorem Tracks.connections (h : r.Tracks d top p ledger) (as : List (String × List Bit)) :
    ∃ ledger', ledger ⊆ ledger' ∧ (r.connections as).2.Tracks d top p ledger' ∧
      List.Forall₂ (ConnectionCopy d top ledger' p) as (r.connections as).1 := by
  refine Tracks.traverse (fun r a => ((a.1, (r.bits a.2).1), (r.bits a.2).2)) Renaming.connections
    (fun ledger => ConnectionCopy d top ledger p) (fun _ => rfl) (fun _ _ _ => rfl)
    (fun _ _ _ _ hSub ha => ha.mono hSub) (fun r ledger a hr => ?_) as h
  obtain ⟨ledger', hSub, hTracks, hBits⟩ := hr.bits a.2
  exact ⟨ledger', hSub, hTracks, rfl, hBits⟩

theorem Tracks.netnames {x : Placement} (h : r.Tracks d top x.path ledger) (ns : List NetName) :
    ∃ ledger', ledger ⊆ ledger' ∧ (r.netnames x.name ns).2.Tracks d top x.path ledger' ∧
      List.Forall₂ (NameCopy d top ledger' x.path) ns (r.netnames x.name ns).1 := by
  refine Tracks.traverse
    (fun r n => ({ n with name := x.name ++ "." ++ n.name, bits := (r.bits n.bits).1 },
      (r.bits n.bits).2)) (fun r => r.netnames x.name) (fun ledger => NameCopy d top ledger x.path)
    (fun _ => rfl) (fun _ _ _ => rfl) (fun _ _ _ _ hSub hn => hn.mono hSub)
    (fun r ledger n hr => ?_) ns h
  obtain ⟨ledger', hSub, hTracks, hBits⟩ := hr.bits n.bits
  exact ⟨ledger', hSub, hTracks, (x.nameBelow_path n.name).symm, hBits, rfl, rfl⟩

theorem Tracks.cells {x : Placement} (h : r.Tracks d top x.path ledger) (cs : List Cell) :
    ∃ ledger', ledger ⊆ ledger' ∧ (r.cells x.name cs).2.Tracks d top x.path ledger' ∧
      List.Forall₂ (CellCopy d top ledger' x.path) cs (r.cells x.name cs).1 := by
  refine Tracks.traverse
    (fun r c => (⟨x.name ++ "." ++ c.name, c.type, (r.connections c.connections).1⟩,
      (r.connections c.connections).2)) (fun r => r.cells x.name)
    (fun ledger => CellCopy d top ledger x.path) (fun _ => rfl) (fun _ _ _ => rfl)
    (fun _ _ _ _ hSub hc => hc.mono hSub) (fun r ledger c hr => ?_) cs h
  obtain ⟨ledger', hSub, hTracks, hConnections⟩ := hr.connections c.connections
  exact ⟨ledger', hSub, hTracks, (x.nameBelow_path c.name).symm, rfl, hConnections⟩

end Renaming

/-- **What takes the place of a cell is a copy of the contents of its module.** -/
theorem inlineCell_copies {d : Design} {top m below : Module} {ledger : Ledger} {x : Placement}
    {cell : Cell} {counter : Nat} (hReaches : d.Reaches top x.scope m)
    (hCell : m.cells[x.position]? = some x.cell) (hBelow : d.expandable? x.cell.type = some below)
    (hCopy : CellCopy d top ledger x.scope x.cell cell)
    (hFresh : ledger.Fresh (Design.maxNet top) counter) :
    ∃ ledger', ledger ⊆ ledger' ∧
      ledger'.Fresh (Design.maxNet top) (inlineCell cell below counter).counter ∧
      List.Forall₂ (CellCopy d top ledger' x.path) below.cells (inlineCell cell below counter).cells ∧
      List.Forall₂ (NameCopy d top ledger' x.path) below.netnames
        (inlineCell cell below counter).netnames := by
  have hStart : Renaming.Tracks d top x.path ledger ⟨[], counter⟩ := by
    refine ⟨fun n b hn => ?_, hFresh⟩
    cases hn
  -- where the cell has a bit outside a port, that bit is a copy of the one in the original cell
  have hOuter : ∀ name port, (name, port) ∈ below.ports → ∀ (k n : Nat) b,
      port.bits[k]? = some (.net n) → (outerBits cell.connections name)[k]? = some (some b) →
      Becomes d top ledger x.path (.net n) b := by
    intro name port hPort k n b hInner hBit
    unfold outerBits at hBit
    split at hBit
    · next bits' hBits =>
      obtain ⟨bits, hConnection, hBecomes⟩ := hCopy.connection? hBits
      rw [List.getElem?_map] at hBit
      obtain ⟨b', hb', hEq⟩ := Option.map_eq_some_iff.mp hBit
      cases hEq
      obtain ⟨outer, hOuter, hOuterBecomes⟩ := becomes_of_getElem? hBecomes hb'
      exact hOuterBecomes.through
        ⟨m, below, name, port, bits, k, hReaches, hCell, hBelow, hPort, hConnection, hInner, hOuter⟩
    · rw [List.getElem?_replicate] at hBit
      split at hBit <;> cases hBit
  have hName : cell.name = x.name := hCopy.name
  obtain ⟨ledger₁, hSub₁, h₁⟩ := hStart.bindPorts hOuter
  obtain ⟨ledger₂, hSub₂, h₂, hNames⟩ := h₁.netnames below.netnames
  obtain ⟨ledger₃, hSub₃, h₃, hCells⟩ := h₂.cells below.cells
  rw [← hName] at h₂ hNames h₃ hCells
  exact ⟨ledger₃, List.Subset.trans hSub₁ (List.Subset.trans hSub₂ hSub₃), h₃.fresh, hCells,
    hNames.imp fun _ _ hn => hn.mono hSub₃⟩

end ProbeAtlas
