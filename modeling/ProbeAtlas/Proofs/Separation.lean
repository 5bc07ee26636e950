import Mathlib.Data.List.Forall2
import ProbeAtlas.Proofs.FlatContents

/-!
# ProbeAtlas — flattening creates no short circuit

Net numbers are local to a module, so the same number means different nets in different instances, and
flattening hands out new numbers. Two bits of the flat top may carry the same number only if they come
from nets that the hierarchy connects already, and a bit may be constant only if it was so before or is
connected to that constant.

`Traces` says which bit of the flat top comes from which bit of an instance. It goes by position: the
cells and net names of the flat top stand in the order in which the hierarchy is enumerated, and each
of them keeps the order of its connections and of its bits.

Main result: `Design.flatten_separates`. It speaks about numbers below `exactBound`. These are all
numbers there are, unless the counter of nets has run out of numbers that have a successor.
-/

namespace ProbeAtlas

/-- The bit of an instance and the bit of the flat top stand at the same place: in one connection of
one cell, or under one net name. -/
inductive Traces (leaves : List Placement) (scopes : List (InstancePath × Module)) (flat : Module) :
    InstancePath → Bit → Bit → Prop
  | cell {i j k : Nat} {x : Placement} {c : Cell} {a a' : String × List Bit} {b b' : Bit} :
      leaves[i]? = some x → flat.cells[i]? = some c → x.cell.connections[j]? = some a →
      c.connections[j]? = some a' → a.2[k]? = some b → a'.2[k]? = some b' →
      Traces leaves scopes flat x.scope b b'
  | name {i k : Nat} {p : InstancePath} {n n' : NetName} {b b' : Bit} :
      (namesOf scopes)[i]? = some (p, n) → flat.netnames[i]? = some n' → n.bits[k]? = some b →
      n'.bits[k]? = some b' → Traces leaves scopes flat p b b'

/-- Related lists are related at every position. -/
theorem rel_of_getElem? {α β : Type} {R : α → β → Prop} {xs : List α} {ys : List β}
    (h : List.Forall₂ R xs ys) {i : Nat} {x : α} {y : β} (hx : xs[i]? = some x)
    (hy : ys[i]? = some y) : R x y := by
  obtain ⟨hxLt, rfl⟩ := List.getElem?_eq_some_iff.mp hx
  obtain ⟨hyLt, rfl⟩ := List.getElem?_eq_some_iff.mp hy
  exact (List.forall₂_iff_get.mp h).2 i hxLt hyLt

namespace Design

/-- A bit that comes from another is one that the other may become. -/
theorem Flattened.becomes {d : Design} {top flat : Module} {leaves : List Placement}
    {scopes : List (InstancePath × Module)} {ledger : Ledger} {p : InstancePath} {b b' : Bit}
    (h : Flattened d top leaves scopes ledger flat.cells flat.netnames)
    (hTraces : Traces leaves scopes flat p b b') : Becomes d top ledger p b b' := by
  cases hTraces with
  | cell hx hc ha ha' hb hb' =>
    have hCopy := rel_of_getElem? h.cellCopies hx hc
    have hConnection := rel_of_getElem? hCopy.connections ha ha'
    exact rel_of_getElem? hConnection.2 hb hb'
  | name hn hn' hb hb' =>
    have hCopy := rel_of_getElem? h.nameCopies hn hn'
    exact rel_of_getElem? hCopy.bits hb hb'

/-- **Flattening creates no short circuit.** Every bit of the flat top comes from a bit of an instance.
Bits of one number come from nets that a chain of bindings links, and a constant bit comes from that
constant or from a net that a chain of bindings ties to it. -/
theorem flatten_separates {d d' : Design} (h : d.flatten = (d', none)) :
    ∃ top flat leaves scopes, d.topModule? = some top ∧ d'.topModule? = some flat ∧
      d.Enumerates top leaves scopes ∧
      flat.cells.map Cell.outline = leaves.map Placement.outline ∧
      flat.netnames.map NetName.outline = (namesOf scopes).map outlineBelow ∧
      (∀ p b p' b' id, id < exactBound → Traces leaves scopes flat p b (.net id) →
        Traces leaves scopes flat p' b' (.net id) →
        ∃ n n', b = .net n ∧ b' = .net n' ∧ d.Linked top (p, n) (p', n')) ∧
      (∀ p b level, Traces leaves scopes flat p b (.const level) →
        b = .const level ∨ ∃ n, b = .net n ∧ d.TiedTo top (p, n) level) := by
  obtain ⟨top, leaves, scopes, ledger, cells, netnames, hTop, hFlattened, rfl⟩ := flatten_elaborates h
  obtain ⟨hCells, hNames⟩ := hFlattened.outlines
  refine ⟨top, { top with cells, netnames }, leaves, scopes, hTop, topModule?_withContents hTop,
    hFlattened.enumerates, hCells, hNames, ?_, ?_⟩
  · intro p b p' b' id hExact hTraces hTraces'
    obtain ⟨counter, hFresh⟩ := hFlattened.fresh
    cases Flattened.becomes hFlattened hTraces with
    | @net n _ o hLinked hSource =>
      cases Flattened.becomes hFlattened hTraces' with
      | @net n' _ o' hLinked' hSource' =>
        -- both chains lead to the first holder of the number
        have hSame : o = o' := hFresh.source_unique hExact hSource hSource'
        exact ⟨n, n', rfl, rfl, .trans _ _ _ hLinked (hSame ▸ .symm _ _ hLinked')⟩
  · intro p b level hTraces
    cases Flattened.becomes hFlattened hTraces with
    | const => exact Or.inl rfl
    | @tied n _ hTied => exact Or.inr ⟨n, rfl, hTied⟩

end Design

/-- In the sample both instances of the pair share a net of the top, and nothing else. -/
theorem nestedDesign_separates : ∃ top flat leaves scopes,
    nestedDesign.flatten = (nestedDesign.flatten.1, none) ∧
      nestedDesign.flatten.1.topModule? = some flat ∧ nestedDesign.Enumerates top leaves scopes ∧
      (flat.cells.map fun c => c.connections.map Prod.snd) =
        [[[.net 2], [.net 3]], [[.net 2, .const .one]], [[.net 2, .net 5]], [[.net 2], [.net 4]],
          [[.net 2], [.net 6]]] ∧
      (∀ p b p' b' id, id < exactBound → Traces leaves scopes flat p b (.net id) →
        Traces leaves scopes flat p' b' (.net id) →
        ∃ n n', b = .net n ∧ b' = .net n' ∧ nestedDesign.Linked top (p, n) (p', n')) := by
  obtain ⟨top, flat, leaves, scopes, -, hFlat, hEnumerates, -, -, hNets, -⟩ :=
    Design.flatten_separates nestedDesign_flattens
  have hBits : (nestedDesign.flatten.1.topModule?.map fun m =>
      m.cells.map fun c => c.connections.map Prod.snd) =
        some [[[.net 2], [.net 3]], [[.net 2, .const .one]], [[.net 2, .net 5]], [[.net 2], [.net 4]],
          [[.net 2], [.net 6]]] := by decide +kernel
  rw [hFlat] at hBits
  exact ⟨top, flat, leaves, scopes, nestedDesign_flattens, hFlat, hEnumerates, Option.some.inj hBits,
    hNets⟩

end ProbeAtlas
