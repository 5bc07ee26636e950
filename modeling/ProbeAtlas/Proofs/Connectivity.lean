import Mathlib.Logic.Function.Basic
import Mathlib.Logic.Relation
import ProbeAtlas.Proofs.Separation

/-!
# ProbeAtlas — which connections survive flattening

A bit inside an instance and the bit outside it meet if they stand at one position of a port
(`Design.Meets`). Bits that a chain of such meetings leads through should be one bit in the flat top.
They are, as long as each meeting on the way is at a position that decides about its net
(`Module.Decides`). Inlining takes over the bit outside at the first position of the ports that has the
net, and at no later one, and it passes over constants. A module whose ports are plain has only
positions that decide. Where a net is at two positions, the second connection is dropped: in
`passDesign` one wire goes through a module and comes out as another.

The proof gives every bit of every instance its value in the flat top. Inlining a cell fixes the values
of one instance once and for all: a net that is decided stays decided, so all that is written during the
renaming can be read off from the renaming at its end (`Renaming.Writes`). `Elaboration.Valued` collects
this over the search.

Main result: `Design.flatten_connects`.
-/

namespace ProbeAtlas

-- ---------------------------------------------------------------------------
-- Bits that meet at a port
-- ---------------------------------------------------------------------------

/-- The position of the ports holds a net, and it is the first one that does. Positions are given by
the number of the port and the number of the bit. -/
def Module.Decides (m : Module) (j k : Nat) : Prop :=
  ∃ name port n, m.ports[j]? = some (name, port) ∧ port.bits[k]? = some (.net n) ∧
    (∀ e ∈ m.ports.take j, .net n ∉ e.2.bits) ∧ .net n ∉ port.bits.take k

/-- All bits of ports are nets, and no two of them are the same. -/
def Module.HasPlainPorts (m : Module) : Prop :=
  (m.ports.flatMap fun e => e.2.bits).Nodup ∧ ∀ e ∈ m.ports, ∀ b ∈ e.2.bits, (b.net?).isSome

instance (m : Module) : Decidable m.HasPlainPorts :=
  inferInstanceAs (Decidable (_ ∧ _))

namespace Design

/-- A bit of an instance, and the bit outside the instance at the same position of a port. Only the
positions that count are considered. -/
inductive Meets (d : Design) (top : Module) (counts : Module → Nat → Nat → Prop) :
    InstancePath × Bit → InstancePath × Bit → Prop
  | port {p : InstancePath} {m below : Module} {step : Cell × Nat} {j k : Nat} {name : String}
      {port : Port} {bits : List Bit} {inner outer : Bit} : d.Reaches top p m →
      m.cells[step.2]? = some step.1 → d.expandable? step.1.type = some below →
      below.ports[j]? = some (name, port) → counts below j k → step.1.connection? name = some bits →
      port.bits[k]? = some inner → bits[k]? = some outer →
      Meets d top counts (p ++ [step], inner) (p, outer)

/-- A chain of bits that meet leads from one bit to the other. -/
def Chained (d : Design) (top : Module) (counts : Module → Nat → Nat → Prop) :
    InstancePath × Bit → InstancePath × Bit → Prop :=
  Relation.EqvGen (d.Meets top counts)

end Design

/-- In plain ports every position decides. -/
theorem Module.HasPlainPorts.decides {m : Module} (h : m.HasPlainPorts) {j k : Nat} {name : String}
    {port : Port} {b : Bit} (hj : m.ports[j]? = some (name, port)) (hk : port.bits[k]? = some b) :
    m.Decides j k := by
  obtain ⟨n, hn⟩ : ∃ n, b = .net n := by
    have hSome := h.2 _ (List.mem_of_getElem? hj) b (List.mem_of_getElem? hk)
    cases b with
    | net n => exact ⟨n, rfl⟩
    | const level => cases hSome
  subst hn
  -- the bits of all ports, cut at the position
  obtain ⟨hjLt, hPort⟩ := List.getElem?_eq_some_iff.mp hj
  obtain ⟨hkLt, hBit⟩ := List.getElem?_eq_some_iff.mp hk
  have hNodup := h.1
  rw [← List.take_append_drop j m.ports, List.drop_eq_getElem_cons hjLt, hPort, List.flatMap_append,
    List.flatMap_cons, List.nodup_append] at hNodup
  obtain ⟨-, hRest, hApart⟩ := hNodup
  refine ⟨name, port, n, hj, hk, fun e he hMem => ?_, fun hMem => ?_⟩
  · refine hApart (.net n) (List.mem_flatMap.mpr ⟨e, he, hMem⟩) (.net n) ?_ rfl
    exact List.mem_append_left _ (List.mem_of_getElem? hk)
  · have hBits := (List.nodup_append.mp hRest).1
    rw [← List.take_append_drop k port.bits, List.drop_eq_getElem_cons hkLt, hBit,
      List.nodup_append] at hBits
    exact hBits.2.2 (.net n) hMem (.net n) (List.mem_cons_self ..) rfl

namespace Design

variable {d : Design} {top : Module} {a b : InstancePath × Bit}

/-- Values that agree wherever two bits meet agree along chains. -/
theorem Chained.value_eq {counts : Module → Nat → Nat → Prop} {σ : InstancePath → Bit → Bit}
    (hMeets : ∀ a b, d.Meets top counts a b → σ a.1 a.2 = σ b.1 b.2) (h : d.Chained top counts a b) :
    σ a.1 a.2 = σ b.1 b.2 := by
  induction h with
  | rel a b hab => exact hMeets a b hab
  | refl a => rfl
  | symm a b _ ih => exact ih.symm
  | trans a b c _ _ ih ih' => exact ih.trans ih'

/-- Where all instances have plain ports, every position decides. -/
theorem Chained.decides (hPlain : ∀ p m, p ≠ [] → d.Reaches top p m → m.HasPlainPorts)
    (h : d.Chained top (fun _ _ _ => True) a b) : d.Chained top Module.Decides a b := by
  refine Relation.EqvGen.mono (fun a b hab => ?_) a b h
  cases hab with
  | port hReaches hCell hBelow hj _ hBits hk hOuter =>
    have hPorts := hPlain _ _ (by simp) (hReaches.child hCell hBelow)
    exact .port hReaches hCell hBelow hj (hPorts.decides hj hk) hBits hk hOuter

end Design

-- ---------------------------------------------------------------------------
-- Deciding about ports
-- ---------------------------------------------------------------------------

namespace Renaming

variable {r : Renaming} {n : Nat} {b : Option Bit}

/-- What deciding about a port does with the net of the first bit. -/
theorem bindPort_net (r : Renaming) (id : Nat) (inner : List Bit) (outer : List (Option Bit)) :
    ∃ r' : Renaming, r.bindPort (.net id :: inner) outer = r'.bindPort inner outer.tail ∧
      (∀ n, n ≠ id → r'.known.lookup n = r.known.lookup n) ∧
      (∀ b, r.known.lookup id = some b → r'.known.lookup id = some b) ∧
      (∀ b, r.known.lookup id = none → outer[0]? = some b → r'.known.lookup id = some b) := by
  rw [bindPort.eq_def]
  dsimp only
  split
  · next hKnown =>
    refine ⟨r, rfl, fun _ _ => rfl, fun _ h => h, fun b hNone => ?_⟩
    rw [isKnown, hNone] at hKnown
    cases hKnown
  · next hUnknown =>
    have hNone : r.known.lookup id = none := Option.not_isSome_iff_eq_none.mp hUnknown
    cases outer with
    | nil =>
      refine ⟨r.setFresh id, rfl, fun n hn => ?_, fun b hb => ?_, fun b _ hb => ?_⟩
      · exact (lookup_set r id n _).trans (if_neg hn)
      · rw [hNone] at hb
        cases hb
      · cases hb
    | cons first rest =>
      refine ⟨r.set id first, rfl, fun n hn => ?_, fun b hb => ?_, fun b _ hb => ?_⟩
      · rw [lookup_set, if_neg hn]
      · rw [hNone] at hb
        cases hb
      · cases hb
        rw [lookup_set, if_pos rfl]

/-- The first decision about a net stands. -/
theorem lookup_bindPort_of_known {inner : List Bit} {outer : List (Option Bit)}
    (h : r.known.lookup n = some b) : (r.bindPort inner outer).known.lookup n = some b := by
  induction inner generalizing r outer with
  | nil => exact h
  | cons bit inner ih =>
    cases bit with
    | const level => exact ih h
    | net id =>
      obtain ⟨r', hEq, hOther, hKnown, -⟩ := bindPort_net r id inner outer
      rw [hEq]
      by_cases hn : n = id
      · subst hn
        exact ih (hKnown b h)
      · exact ih ((hOther n hn).trans h)

theorem lookup_bindPort_of_not_mem {inner : List Bit} {outer : List (Option Bit)}
    (h : r.known.lookup n = none) (hMem : .net n ∉ inner) :
    (r.bindPort inner outer).known.lookup n = none := by
  induction inner generalizing r outer with
  | nil => exact h
  | cons bit inner ih =>
    obtain ⟨hFirst, hRest⟩ := not_or.mp (mt List.mem_cons.mpr hMem)
    cases bit with
    | const level => exact ih h hRest
    | net id =>
      obtain ⟨r', hEq, hOther, -, -⟩ := bindPort_net r id inner outer
      rw [hEq]
      exact ih ((hOther n fun hn => hFirst (congrArg Bit.net hn)).trans h) hRest

/-- **The first position of a port that has the net decides about it.** -/
theorem lookup_bindPort {inner : List Bit} {outer : List (Option Bit)} {k : Nat}
    (h : r.known.lookup n = none) (hk : inner[k]? = some (.net n)) (hFirst : .net n ∉ inner.take k)
    (hOuter : outer[k]? = some b) : (r.bindPort inner outer).known.lookup n = some b := by
  induction inner generalizing r outer k with
  | nil => cases hk
  | cons bit inner ih =>
    cases k with
    | zero =>
      cases hk
      obtain ⟨r', hEq, -, -, hDecided⟩ := bindPort_net r n inner outer
      rw [hEq]
      exact lookup_bindPort_of_known (hDecided b h hOuter)
    | succ k =>
      rw [List.take_succ_cons] at hFirst
      obtain ⟨hHead, hRest⟩ := not_or.mp (mt List.mem_cons.mpr hFirst)
      rw [← List.getElem?_tail] at hOuter
      cases bit with
      | const level => exact ih h hk hRest hOuter
      | net id =>
        obtain ⟨r', hEq, hOther, -, -⟩ := bindPort_net r id inner outer
        rw [hEq]
        exact ih ((hOther n fun hn => hHead (congrArg Bit.net hn)).trans h) hk hRest hOuter

theorem lookup_bindPorts_of_known {connections : List (String × List Bit)}
    {ports : List (String × Port)} (h : r.known.lookup n = some b) :
    (r.bindPorts connections ports).known.lookup n = some b := by
  induction ports generalizing r with
  | nil => exact h
  | cons first rest ih =>
    rw [bindPorts]
    exact ih (lookup_bindPort_of_known h)

/-- **The first position of all ports that has the net decides about it.** -/
theorem lookup_bindPorts {connections : List (String × List Bit)} {ports : List (String × Port)}
    {j k : Nat} {name : String} {port : Port} (h : r.known.lookup n = none)
    (hj : ports[j]? = some (name, port)) (hBefore : ∀ e ∈ ports.take j, .net n ∉ e.2.bits)
    (hk : port.bits[k]? = some (.net n)) (hFirst : .net n ∉ port.bits.take k)
    (hOuter : (outerBits connections name)[k]? = some b) :
    (r.bindPorts connections ports).known.lookup n = some b := by
  induction ports generalizing r j with
  | nil => cases hj
  | cons first rest ih =>
    cases j with
    | zero =>
      cases hj
      rw [bindPorts]
      exact lookup_bindPorts_of_known (lookup_bindPort h hk hFirst hOuter)
    | succ j =>
      rw [List.take_succ_cons] at hBefore
      obtain ⟨hHead, hRest⟩ := List.forall_mem_cons.mp hBefore
      rw [bindPorts]
      exact ih (lookup_bindPort_of_not_mem h hHead) hj hRest

-- ---------------------------------------------------------------------------
-- What nets become in the end
-- ---------------------------------------------------------------------------

/-- The new bit of a bit, where that is decided. -/
def value (r : Renaming) : Bit → Bit
  | .const level => .const level
  | .net id => (r.get? id).getD (.net id)

/-- Nothing that is decided is revised. -/
def Extends (r r' : Renaming) : Prop :=
  ∀ n b, r.get? n = some b → r'.get? n = some b

theorem Extends.refl (r : Renaming) : r.Extends r := fun _ _ h => h

theorem Extends.trans {r r' r'' : Renaming} (h : r.Extends r') (h' : r'.Extends r'') : r.Extends r'' :=
  fun n b hb => h' n b (h n b hb)

theorem Extends.value {r r' : Renaming} (h : r.Extends r') {n : Nat} {b : Bit} (hb : r.get? n = some b) :
    r'.value (.net n) = b := by
  rw [Renaming.value, h n b hb, Option.getD_some]

/-- What `f` writes is `g` of the bits that there are in the end, however the renaming goes on. -/
def Writes {α β : Type} (f : Renaming → α → β × Renaming) (g : (Bit → Bit) → α → β) : Prop :=
  ∀ r a, r.Extends (f r a).2 ∧ ∀ r', (f r a).2.Extends r' → (f r a).1 = g r'.value a

theorem Writes.list {α β : Type} {f : Renaming → α → β × Renaming} {g : (Bit → Bit) → α → β}
    {fs : Renaming → List α → List β × Renaming} (h : Writes f g) (hNil : ∀ r, fs r [] = ([], r))
    (hCons : ∀ r a as, fs r (a :: as) = ((f r a).1 :: (fs (f r a).2 as).1, (fs (f r a).2 as).2)) :
    Writes fs fun σ => List.map (g σ) := by
  intro r as
  induction as generalizing r with
  | nil =>
    rw [hNil]
    exact ⟨.refl r, fun _ _ => rfl⟩
  | cons a as ih =>
    obtain ⟨hFirst, hWritten⟩ := h r a
    obtain ⟨hRest, hLater⟩ := ih (f r a).2
    rw [hCons]
    refine ⟨hFirst.trans hRest, fun r' hr' => ?_⟩
    show (f r a).1 :: (fs (f r a).2 as).1 = g r'.value a :: as.map (g r'.value)
    rw [hWritten r' (hRest.trans hr'), hLater r' hr']

theorem writes_bit : Writes Renaming.bit fun σ b => σ b := by
  intro r b
  cases b with
  | const level => exact ⟨.refl r, fun _ _ => rfl⟩
  | net id =>
    cases hKnown : r.get? id with
    | some b =>
      have hBit : r.bit (.net id) = (b, r) := by rw [Renaming.bit, hKnown]
      rw [hBit]
      exact ⟨.refl r, fun r' hr' => (hr'.value hKnown).symm⟩
    | none =>
      have hBit : r.bit (.net id) = (.net (nextNet r.counter), r.setFresh id) := by
        rw [Renaming.bit, hKnown]
      rw [hBit]
      refine ⟨fun n b hb => ?_, fun r' hr' => (hr'.value ?_).symm⟩
      · rw [get?_setFresh, if_neg]
        · exact hb
        · rintro rfl
          rw [hKnown] at hb
          cases hb
      · rw [get?_setFresh, if_pos rfl]

theorem writes_bits : Writes Renaming.bits List.map :=
  writes_bit.list (fun _ => rfl) fun _ _ _ => rfl

end Renaming

/-- The cell under another name and with other bits. -/
def Cell.rename (c : Cell) (σ : Bit → Bit) (name : String) : Cell :=
  ⟨name, c.type, c.connections.map fun a => (a.1, a.2.map σ)⟩

/-- The net name under another name and with other bits. -/
def NetName.rename (n : NetName) (σ : Bit → Bit) (name : String) : NetName :=
  { n with name, bits := n.bits.map σ }

namespace Renaming

theorem writes_connections :
    Writes Renaming.connections fun σ => List.map fun a => (a.1, a.2.map σ) := by
  refine Writes.list (f := fun r a => ((a.1, (r.bits a.2).1), (r.bits a.2).2)) (fun r a => ?_)
    (fun _ => rfl) fun _ _ _ => rfl
  obtain ⟨hExtends, hBits⟩ := writes_bits r a.2
  exact ⟨hExtends, fun r' hr' => congrArg (Prod.mk a.1) (hBits r' hr')⟩

theorem writes_netnames (cell : String) : Writes (fun r => r.netnames cell) fun σ =>
    List.map fun n => n.rename σ (cell ++ "." ++ n.name) := by
  refine Writes.list (f := fun r n =>
    ({ n with name := cell ++ "." ++ n.name, bits := (r.bits n.bits).1 }, (r.bits n.bits).2))
    (fun r n => ?_) (fun _ => rfl) fun _ _ _ => rfl
  obtain ⟨hExtends, hBits⟩ := writes_bits r n.bits
  refine ⟨hExtends, fun r' hr' => ?_⟩
  rw [NetName.rename, ← hBits r' hr']

theorem writes_cells (cell : String) : Writes (fun r => r.cells cell) fun σ =>
    List.map fun c => c.rename σ (cell ++ "." ++ c.name) := by
  refine Writes.list (f := fun r c =>
    (⟨cell ++ "." ++ c.name, c.type, (r.connections c.connections).1⟩, (r.connections c.connections).2))
    (fun r c => ?_) (fun _ => rfl) fun _ _ _ => rfl
  obtain ⟨hExtends, hConnections⟩ := writes_connections r c.connections
  exact ⟨hExtends, fun r' hr' => congrArg (Cell.mk _ c.type) (hConnections r' hr')⟩

end Renaming

/-- **What takes the place of a cell is the contents of its module with other bits.** At a position that
decides, the bit inside becomes the bit outside. -/
theorem inlineCell_renames (cell : Cell) (child : Module) (counter : Nat) : ∃ σ : Bit → Bit,
    (inlineCell cell child counter).cells =
      child.cells.map (fun c => c.rename σ (cell.name ++ "." ++ c.name)) ∧
    (inlineCell cell child counter).netnames =
      child.netnames.map (fun n => n.rename σ (cell.name ++ "." ++ n.name)) ∧
    ∀ (j k : Nat) name port inner outer, child.ports[j]? = some (name, port) → child.Decides j k →
      port.bits[k]? = some inner → (outerBits cell.connections name)[k]? = some (some outer) →
      σ inner = outer := by
  obtain ⟨r₁, hPorts⟩ : ∃ r₁, Renaming.bindPorts ⟨[], counter⟩ cell.connections child.ports = r₁ :=
    ⟨_, rfl⟩
  obtain ⟨hExtends₂, hNames⟩ := Renaming.writes_netnames cell.name r₁ child.netnames
  obtain ⟨hExtends₃, hCells⟩ :=
    Renaming.writes_cells cell.name (r₁.netnames cell.name child.netnames).2 child.cells
  refine ⟨((r₁.netnames cell.name child.netnames).2.cells cell.name child.cells).2.value, ?_, ?_, ?_⟩
  · unfold inlineCell
    rw [hPorts]
    exact hCells _ (.refl _)
  · unfold inlineCell
    rw [hPorts]
    exact hNames _ hExtends₃
  · rintro j k name port inner outer hj ⟨name', port', n, hj', hn, hBefore, hFirst⟩ hk hOuter
    rw [hj] at hj'
    cases hj'
    rw [hk] at hn
    cases hn
    have hLookup := Renaming.lookup_bindPorts (r := ⟨[], counter⟩) rfl hj hBefore hk hFirst hOuter
    rw [hPorts] at hLookup
    refine (hExtends₂.trans hExtends₃).value ?_
    rw [Renaming.get?, hLookup, Option.join_some]

/-! ## The value of every bit -/

/-- At a port position that decides, the bits inside a cell and outside it have the same value. -/
def Module.Passes (below : Module) (c : Cell) (inside outside : Bit → Bit) : Prop :=
  ∀ (j k : Nat) name port bits inner outer, below.ports[j]? = some (name, port) → below.Decides j k →
    c.connection? name = some bits → port.bits[k]? = some inner → bits[k]? = some outer →
    inside inner = outside outer

theorem outerBits_rename {c : Cell} {σ : Bit → Bit} {name port : String} {bits : List Bit}
    (h : c.connection? port = some bits) :
    outerBits (c.rename σ name).connections port = bits.map fun b => some (σ b) := by
  have hGet : Entries.get? (c.rename σ name).connections port = some (bits.map σ) := by
    unfold Cell.connection? Entries.get? at h
    rw [Cell.rename, Entries.get?, List.find?_map]
    obtain ⟨a, ha, rfl⟩ := Option.map_eq_some_iff.mp h
    have hFind : c.connections.find? ((fun e => e.1 == port) ∘ fun a => (a.1, a.2.map σ)) = some a := ha
    rw [hFind]
    rfl
  rw [outerBits, hGet]
  simp

/-- The cell of the flat top that stands for a cell of an instance. -/
def Placement.renamed (σ : InstancePath → Bit → Bit) (x : Placement) : Cell :=
  x.cell.rename (σ x.scope) x.name

theorem map_renamed_placements (σ : InstancePath → Bit → Bit) (p : InstancePath) (m : Module) :
    (placements p m).map (Placement.renamed σ) =
      m.cells.map fun c => c.rename (σ p) (nameBelow p c.name) := by
  rw [placements, List.map_map]
  conv_rhs => rw [← List.zipIdx_map_fst 0 m.cells, List.map_map]
  rfl

namespace Elaboration

/-- The flat top holds what the search has found, with the given values of bits. -/
structure Valued (σ : InstancePath → Bit → Bit) (g : Elaboration) (front : List Placement)
    (cells : List Cell) (s : Flat) : Prop where
  kept     : s.kept.toList = g.leaves.map (Placement.renamed σ)
  taken    : cells = front.map (Placement.renamed σ)
  pending  : s.pending.toList = g.next.map (Placement.renamed σ)
  netnames : s.netnames.toList =
               (namesOf g.scopes).map fun e => e.2.rename (σ e.1) (nameBelow e.1 e.2.name)
  ports    : ∀ p step below, (p ++ [step], below) ∈ g.scopes →
               below.Passes step.1 (σ (p ++ [step])) (σ p)

variable {d : Design} {top : Module} {σ : InstancePath → Bit → Bit} {g : Elaboration}
  {front : List Placement} {cells : List Cell} {s : Flat} {x : Placement} {c : Cell}

theorem Valued.keep (h : g.Valued σ (x :: front) (c :: cells) s) :
    (g.keep x).Valued σ front cells { s with kept := s.kept.push c } := by
  obtain ⟨hFirst, hFront⟩ := List.cons.inj h.taken
  refine ⟨?_, hFront, h.pending, h.netnames, h.ports⟩
  rw [Array.toList_push, h.kept, hFirst, Elaboration.keep, List.map_append, List.map_singleton]

theorem mem_paths_of_mem_namesOf {e : InstancePath × NetName} (h : e ∈ namesOf g.scopes) :
    e.1 ∈ g.paths := by
  obtain ⟨scope, hScope, he⟩ := List.mem_flatMap.mp h
  obtain ⟨n, -, rfl⟩ := List.mem_map.mp he
  exact List.mem_map_of_mem hScope

/-- **Inlining a cell gives values to the bits of one more instance.** The instance is a new one, so the
values that there are already do not change. -/
theorem Valued.inline (h : g.Valued σ (x :: front) (c :: cells) s)
    (hCovers : g.Covers d top (x :: front)) (below : Module) :
    ∃ σ', (g.expand x below).Valued σ' front cells (s.inline c below) := by
  obtain ⟨hFirst, hFront⟩ := List.cons.inj h.taken
  obtain ⟨value, hCells, hNames, hPorts⟩ := inlineCell_renames c below s.counter
  have hx : x ∈ g.unexpanded (x :: front) := by simp [unexpanded]
  have hNew : x.path ∉ g.paths := hCovers.apart x hx
  obtain ⟨σ', hσ'⟩ : ∃ σ', σ' = Function.update σ x.path value := ⟨_, rfl⟩
  have hHere : σ' x.path = value := by rw [hσ', Function.update_self]
  have hOld : ∀ p ∈ g.paths, σ' p = σ p := by
    intro p hp
    have hne : p ≠ x.path := fun hEq => hNew (hEq ▸ hp)
    rw [hσ', Function.update_of_ne hne]
  have hMap : ∀ ys, ys ⊆ g.unexpanded (x :: front) →
      ys.map (Placement.renamed σ) = ys.map (Placement.renamed σ') := by
    intro ys hys
    refine List.map_congr_left fun y hy => ?_
    rw [Placement.renamed, Placement.renamed, hOld _ (hCovers.scope_mem_paths (hys hy))]
  have hName : c.name = x.name := by rw [hFirst]; rfl
  refine ⟨σ', ?_, ?_, ?_, ?_, ?_⟩
  · exact h.kept.trans (hMap _ (List.subset_append_left ..))
  · refine hFront.trans (hMap _ fun y hy => ?_)
    exact List.mem_append_right _ (List.mem_append_left _ (List.mem_cons_of_mem _ hy))
  · rw [Flat.pending_inline, h.pending, hCells, expand, List.map_append, hMap _ fun y hy =>
      List.mem_append_right _ (List.mem_append_right _ hy)]
    congr 1
    rw [map_renamed_placements]
    refine List.map_congr_left fun y _ => ?_
    rw [hHere, Placement.nameBelow_path, hName]
  · rw [Flat.netnames_inline, h.netnames, hNames, namesOf_expand, List.map_append, List.map_map]
    congr 1
    · exact List.map_congr_left fun e he => by rw [hOld _ (mem_paths_of_mem_namesOf he)]
    · refine List.map_congr_left fun n _ => ?_
      show n.rename value _ = n.rename (σ' x.path) (nameBelow x.path n.name)
      rw [hHere, Placement.nameBelow_path, hName]
  · intro p step m hMem
    rcases List.mem_append.mp hMem with hMem | hMem
    · have hPath : p ++ [step] ∈ g.paths := List.mem_map_of_mem hMem
      rw [hOld _ hPath, hOld _ (hCovers.parent p step hPath)]
      exact h.ports p step m hMem
    · obtain ⟨hPath, rfl⟩ := Prod.mk.inj (List.mem_singleton.mp hMem)
      rw [hPath, hHere]
      obtain ⟨rfl, hStep⟩ := List.append_inj' hPath rfl
      cases hStep
      rw [hOld _ (hCovers.scope_mem_paths hx)]
      intro j k name port bits inner outer hj hDecides hBits hk hOuter
      refine hPorts j k name port inner _ hj hDecides hk ?_
      rw [hFirst, Placement.renamed, outerBits_rename hBits, List.getElem?_map, hOuter, Option.map_some]

theorem follows_valued (d : Design) (top : Module) :
    Follows d top fun g front cells s => ∃ σ, g.Valued σ front cells s where
  types := by
    rintro g front cells s ⟨σ, h⟩
    rw [h.taken, List.forall₂_map_right_iff, List.forall₂_same]
    exact fun _ _ => rfl
  keep := fun ⟨σ, h⟩ => ⟨σ, h.keep⟩
  inline := fun ⟨_, h⟩ hCovers _ => h.inline hCovers _
  advance := fun ⟨σ, h⟩ => ⟨σ, h.kept, h.pending, rfl, h.netnames, h.ports⟩

/-- The bits of the top keep their values. -/
theorem valued_start (top : Module) :
    (start top).Valued (fun _ b => b) [] [] (Design.initialFlat top) := by
  refine ⟨rfl, rfl, ?_, ?_, ?_⟩
  · show top.cells = (placements [] top).map _
    rw [map_renamed_placements]
    simp [Cell.rename]
  · show top.netnames = (namesOf [([], top)]).map _
    simp [namesOf, NetName.rename, Function.comp_def]
  · intro p step below hMem
    have := List.mem_singleton.mp hMem
    simp at this

/-- A bit of the flat top has the value of the bit that it comes from. -/
theorem Valued.traces {flat : Module} (h : g.Valued σ front cells s)
    (hCells : flat.cells = s.kept.toList) (hNames : flat.netnames = s.netnames.toList)
    {p : InstancePath} {b b' : Bit} (hTraces : Traces g.leaves g.scopes flat p b b') : b' = σ p b := by
  rw [h.kept] at hCells
  rw [h.netnames] at hNames
  cases hTraces with
  | @cell i j k x c a a' b b' hx hc ha ha' hb hb' =>
    rw [hCells, List.getElem?_map, hx] at hc
    cases hc
    have hConnection : a' = (a.1, a.2.map (σ x.scope)) := by
      rw [Placement.renamed, Cell.rename, List.getElem?_map, ha] at ha'
      exact (Option.some.inj ha').symm
    rw [hConnection, List.getElem?_map, hb] at hb'
    exact (Option.some.inj hb').symm
  | @name i k p n n' b b' hn hn' hb hb' =>
    rw [hNames, List.getElem?_map, hn] at hn'
    cases hn'
    have hBit : (n.bits.map (σ p))[k]? = some b' := hb'
    rw [List.getElem?_map, hb] at hBit
    exact (Option.some.inj hBit).symm

/-- After a search that is done, bits that meet at a deciding position have the same value. -/
theorem Valued.meets (h : g.Valued σ front cells s) (hCovers : g.Covers d top [])
    (hNext : g.next = []) {a b : InstancePath × Bit} (hMeets : d.Meets top Module.Decides a b) :
    σ a.1 a.2 = σ b.1 b.2 := by
  cases hMeets with
  | port hReaches hCell hBelow hj hDecides hBits hk hOuter =>
    have hMem := hCovers.mem_scopes_of_done hNext (.child hReaches hCell hBelow)
    exact h.ports _ _ _ hMem _ _ _ _ _ _ _ hj hDecides hBits hk hOuter

/-- A flat top has one bit for two bits that a chain of deciding positions leads through. -/
theorem Valued.connects {flat : Module} (h : g.Valued σ front cells s)
    (hCovers : g.Covers d top front) (hEnded : Ended d top front s) (hDone : s.pending = #[])
    (hCells : flat.cells = s.kept.toList) (hNames : flat.netnames = s.netnames.toList)
    {p p' : InstancePath} {b c b' c' : Bit} (hTraces : Traces g.leaves g.scopes flat p b c)
    (hTraces' : Traces g.leaves g.scopes flat p' b' c')
    (hChained : d.Chained top Module.Decides (p, b) (p', b')) : c = c' := by
  rw [h.traces hCells hNames hTraces, h.traces hCells hNames hTraces']
  rcases hEnded with rfl | ⟨x, rfl, -, hBare⟩
  · have hNext : g.next = [] := by
      have hPending := h.pending
      rw [hDone] at hPending
      exact List.map_eq_nil_iff.mp hPending.symm
    exact hChained.value_eq fun a b => h.meets hCovers hNext
  · -- there is no bit in a bare top
    obtain ⟨hNoCells, -, hNoNames⟩ := Flat.isBare_iff.mp hBare
    cases hTraces with
    | cell _ hc => simp [hCells, hNoCells] at hc
    | name _ hn => simp [hNames, hNoNames] at hn

end Elaboration

namespace Design

open Elaboration

/-- **Flattening keeps the connections made at positions that decide.** Two bits that a chain of such
positions leads through are one bit in the flat top. If all instances have plain ports, this holds for
all chains. -/
theorem flatten_connects {d d' : Design} (h : d.flatten = (d', none)) :
    ∃ top flat leaves scopes, d.topModule? = some top ∧ d'.topModule? = some flat ∧
      d.Enumerates top leaves scopes ∧
      flat.cells.map Cell.outline = leaves.map Placement.outline ∧
      flat.netnames.map NetName.outline = (namesOf scopes).map outlineBelow ∧
      (∀ p b c p' b' c', Traces leaves scopes flat p b c → Traces leaves scopes flat p' b' c' →
        d.Chained top Module.Decides (p, b) (p', b') → c = c') ∧
      ((∀ p m, p ≠ [] → d.Reaches top p m → m.HasPlainPorts) →
        ∀ p b c p' b' c', Traces leaves scopes flat p b c → Traces leaves scopes flat p' b' c' →
          d.Chained top (fun _ _ _ => True) (p, b) (p', b') → c = c') := by
  obtain ⟨top, g, front, cells, s, hTop, hCovers, ⟨⟨ledger, hMatches⟩, σ, hValued⟩, hEnded, hDone, rfl⟩ :=
    flatten_follows h (fun top => (follows_matches d top).and (follows_valued d top)) fun top =>
      ⟨⟨[], matches_start d top⟩, _, valued_start top⟩
  have hFlattened := flattened_of_matches hCovers hMatches hEnded hDone
  obtain ⟨hOutlines, hNameOutlines⟩ := hFlattened.outlines
  have hCells : s.cells = s.kept.toList := by rw [Flat.cells, hDone, List.append_nil]
  refine ⟨top, { top with cells := s.cells, netnames := s.netnames.toList }, g.leaves, g.scopes, hTop,
    topModule?_withContents hTop, hFlattened.enumerates, hOutlines, hNameOutlines, ?_, ?_⟩
  · intro p b c p' b' c' hTraces hTraces' hChained
    exact hValued.connects hCovers hEnded hDone hCells rfl hTraces hTraces' hChained
  · intro hPlain p b c p' b' c' hTraces hTraces' hChained
    exact hValued.connects hCovers hEnded hDone hCells rfl hTraces hTraces' (hChained.decides hPlain)

end Design

/-- In the sample all modules have plain ports, so no connection is lost. -/
theorem nestedDesign_connects : ∃ top flat leaves scopes,
    nestedDesign.flatten = (nestedDesign.flatten.1, none) ∧
      nestedDesign.flatten.1.topModule? = some flat ∧ nestedDesign.Enumerates top leaves scopes ∧
      ∀ p b c p' b' c', Traces leaves scopes flat p b c → Traces leaves scopes flat p' b' c' →
        nestedDesign.Chained top (fun _ _ _ => True) (p, b) (p', b') → c = c' := by
  have hPlain : ∀ m ∈ nestedDesign.modules, m.HasPlainPorts := by decide
  obtain ⟨top, flat, leaves, scopes, -, hFlat, hEnumerates, -, -, -, hAll⟩ :=
    Design.flatten_connects nestedDesign_flattens
  exact ⟨top, flat, leaves, scopes, nestedDesign_flattens, hFlat, hEnumerates,
    hAll fun p m hp hReaches => hPlain m (hReaches.mem_modules hp)⟩

/-! ## A wire through a module -/

/-- Two cells at the ends of a wire that goes through an instance of another module. -/
def passDesign : Design :=
  { modules := [top, pass], top := some "top", flattened := false }
where
  pass : Module :=
    { name := "pass", attributes := [], parameters := []
      ports := [("a", ⟨.input, [.net 5]⟩), ("b", ⟨.output, [.net 5]⟩)]
      cells := [], netnames := [], blackbox := false }
  through : Placement := ⟨[], ⟨"u", "pass", [("a", [.net 2]), ("b", [.net 3])]⟩, 0⟩
  source : Placement := ⟨[], ⟨"g", "BUF", [("O", [.net 2])]⟩, 1⟩
  sink : Placement := ⟨[], ⟨"h", "BUF", [("I", [.net 3])]⟩, 2⟩
  top : Module :=
    { name := "top", attributes := [], parameters := [], ports := []
      cells := [through.cell, source.cell, sink.cell], netnames := [], blackbox := false }

open passDesign in
theorem passDesign_expandable : passDesign.expandable? through.cell.type = some pass := by
  decide

open passDesign in
theorem passDesign_enumerates :
    passDesign.Enumerates top [source, sink] [([], top), (through.path, pass)] := by
  have hStart := (Elaboration.covers_start passDesign top).advance
  have hThrough : Elaboration.Covers passDesign top _ [source, sink] :=
    hStart.expand (x := through) passDesign_expandable
  have hSource : Elaboration.Covers passDesign top _ [sink] := hThrough.keep (by decide)
  have hSink : Elaboration.Covers passDesign top _ [] := hSource.keep (by decide)
  exact hSink.enumerates_of_done rfl

open passDesign in
/-- The wire is one wire in the hierarchy, and two in the flat top. -/
theorem passDesign_drops : ∃ flat,
    passDesign.flatten = (passDesign.flatten.1, none) ∧ passDesign.topModule? = some top ∧
      passDesign.flatten.1.topModule? = some flat ∧
      passDesign.Enumerates top [source, sink] [([], top), (through.path, pass)] ∧
      passDesign.Chained top (fun _ _ _ => True) ([], .net 2) ([], .net 3) ∧
      Traces [source, sink] [([], top), (through.path, pass)] flat [] (.net 2) (.net 2) ∧
      Traces [source, sink] [([], top), (through.path, pass)] flat [] (.net 3) (.net 3) := by
  have hFault : passDesign.flatten.2 = none := by decide +kernel
  have hFlat : passDesign.flatten.1.topModule? = some { top with cells := [source.cell, sink.cell] } := by
    decide +kernel
  refine ⟨_, Prod.ext rfl hFault, by decide, hFlat, passDesign_enumerates, ?_, ?_, ?_⟩
  · have hIn : passDesign.Meets top (fun _ _ _ => True) (through.path, .net 5) ([], .net 2) :=
      .port (j := 0) (k := 0) .root rfl passDesign_expandable rfl trivial rfl rfl rfl
    have hOut : passDesign.Meets top (fun _ _ _ => True) (through.path, .net 5) ([], .net 3) :=
      .port (j := 1) (k := 0) .root rfl passDesign_expandable rfl trivial rfl rfl rfl
    exact .trans _ _ _ (.symm _ _ (.rel _ _ hIn)) (.rel _ _ hOut)
  · exact .cell (i := 0) (j := 0) (k := 0) (x := source) rfl rfl rfl rfl rfl rfl
  · exact .cell (i := 1) (j := 0) (k := 0) (x := sink) rfl rfl rfl rfl rfl rfl

end ProbeAtlas
