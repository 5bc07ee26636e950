import Mathlib.Data.Prod.Lex
import ProbeAtlas.Netlist.Connection

/-!
# ProbeAtlas — the preferred name of a net

Names are tried in the order of their declaration, and each of them at all its positions. The name that a net
has got gives way only to one of lower rank. So what one more net name does to a net is to offer it the first
position there, because the further positions have the same rank (`BitNames.get?_offerBits`).

Whatever net names have been tried, the best one is then the first of those of least rank that have the net
(`Chosen`). One more name keeps this (`Chosen.step`), and then so does any number of names (`Chosen.run`).

A rank is one number, in which being hidden weighs as much as a thousand levels. As long as no name has more
levels than that, ranks compare as the pairs of hidden and levels do, hidden first (`NetName.rank_lt_iff`): a
public name has rank 1000 at most, and a hidden one has rank 1001 at least.

Main results:

* `BitNames.get?_offerAll` — what all positions of some net names leave under a net.
* `Module.chosen_nameOf?` — what is known of the preferred name, in terms of ranks.
* `Module.nameOf?_preferred` — the preferred name is the first of the best ones, and the position is the first
  one there.
-/

namespace ProbeAtlas

-- ---------------------------------------------------------------------------
-- A net under one name
-- ---------------------------------------------------------------------------

namespace NetName

variable {n n' : NetName} {id : Nat}

/-- The net under this name, at its first position there. -/
def locate? (n : NetName) (id : Nat) : Option NamedBit :=
  (n.bits.idxOf? (.net id)).map fun position => ⟨n, position⟩

/-- A net is located at its first position. -/
theorem locate?_eq_some_iff {b : NamedBit} : n.locate? id = some b ↔
    b.net = n ∧ n.bits[b.position]? = some (.net id) ∧ ∀ i < b.position, n.bits[i]? ≠ some (.net id) := by
  obtain ⟨net, position⟩ := b
  rw [locate?, Option.map_eq_some_iff]
  constructor
  · rintro ⟨i, hFirst, hBit⟩
    obtain ⟨rfl, rfl⟩ := NamedBit.mk.inj hBit
    obtain ⟨hLt, hAt, hBefore⟩ := List.idxOf?_eq_some_iff.mp hFirst
    refine ⟨rfl, List.getElem?_eq_some_iff.mpr ⟨hLt, hAt⟩, fun j hj hEq => ?_⟩
    obtain ⟨_, hEq⟩ := List.getElem?_eq_some_iff.mp hEq
    exact hBefore j hj hEq
  · rintro ⟨rfl, hAt, hBefore⟩
    obtain ⟨hLt, hAt⟩ := List.getElem?_eq_some_iff.mp hAt
    refine ⟨position, List.idxOf?_eq_some_iff.mpr ⟨hLt, hAt, fun j hj hEq => ?_⟩, rfl⟩
    exact hBefore j hj (List.getElem?_eq_some_iff.mpr ⟨Nat.lt_trans hj hLt, hEq⟩)

theorem locate?_eq_none_iff : n.locate? id = none ↔ .net id ∉ n.bits := by
  rw [locate?, Option.map_eq_none_iff, List.idxOf?_eq_none_iff]

/-- Hidden or not, then the number of levels. -/
def preference (n : NetName) : Bool ×ₗ Nat :=
  toLex (n.hidden, levelsOf n.name)

/-- **Ranks compare as pairs**, as long as the levels do not outweigh that a name is hidden. -/
theorem rank_lt_iff (h : levelsOf n.name ≤ 1000) (h' : levelsOf n'.name ≤ 1000) :
    n.rank < n'.rank ↔ n.preference < n'.preference := by
  -- at least one level separates the worst public name from the best hidden one
  have hLevel : 1 ≤ levelsOf n.name := Nat.le_add_left ..
  have hLevel' : 1 ≤ levelsOf n'.name := Nat.le_add_left ..
  unfold preference rank hiddenPenalty
  rw [Prod.Lex.toLex_lt_toLex]
  have hOrder : ¬true < false := by decide
  by_cases hHidden : n.hidden = true <;> by_cases hHidden' : n'.hidden = true
  · simp [hHidden, hHidden']
  · refine iff_of_false ?_ (by simp [hHidden, hHidden', hOrder])
    rw [if_pos hHidden, if_neg hHidden']
    omega
  · refine iff_of_true ?_ (by simp [hHidden, hHidden'])
    rw [if_neg hHidden, if_pos hHidden']
    omega
  · simp [hHidden, hHidden']

theorem rank_le_iff (h : levelsOf n.name ≤ 1000) (h' : levelsOf n'.name ≤ 1000) :
    n.rank ≤ n'.rank ↔ n.preference ≤ n'.preference := by
  rw [← Nat.not_lt, rank_lt_iff h' h, not_lt]

/-- What is preferred to a public name is public. -/
theorem hidden_of_preference_le (h : n.preference ≤ n'.preference) (hPublic : n'.hidden = false) :
    n.hidden = false := by
  unfold preference at h
  rw [Prod.Lex.toLex_le_toLex, hPublic] at h
  rcases h with hLess | ⟨hSame, -⟩
  · exact absurd hLess (by simp)
  · exact hSame

end NetName

-- ---------------------------------------------------------------------------
-- What is left under a net
-- ---------------------------------------------------------------------------

/-- The preferred of two names, the former unless the latter is strictly better. -/
def NamedBit.prefer : Option NamedBit → Option NamedBit → Option NamedBit
  | none, b => b
  | a, none => a
  | some a, some b => if b.net.rank < a.net.rank then some b else some a

/-- A name stays unless a better one comes. -/
theorem NamedBit.prefer_of_le {a : NamedBit} {later : Option NamedBit}
    (h : ∀ b, later = some b → a.net.rank ≤ b.net.rank) : prefer (some a) later = some a := by
  cases later with
  | none => rfl
  | some b => rw [prefer, if_neg (Nat.not_lt.mpr (h b rfl))]

/-- Once a net name has been offered, its further positions are no better. -/
theorem NamedBit.prefer_same_net (best : Option NamedBit) (n : NetName) (i : Nat) {later : Option NamedBit}
    (hLater : ∀ b, later = some b → b.net = n) :
    prefer (prefer best (some ⟨n, i⟩)) later = prefer best (some ⟨n, i⟩) := by
  have hKept : ∀ a : NamedBit, a.net.rank ≤ n.rank → prefer (some a) later = some a := fun a ha =>
    prefer_of_le fun b hb => by rwa [hLater b hb]
  cases best with
  | none => exact hKept ⟨n, i⟩ (Nat.le_refl _)
  | some a =>
    rw [prefer]
    split
    · exact hKept ⟨n, i⟩ (Nat.le_refl _)
    · next hWorse => exact hKept a (Nat.not_lt.mp hWorse)

namespace BitNames

variable {names : BitNames} {id : Nat}

theorem get?_set_self (names : BitNames) (id : Nat) (b : NamedBit) : (names.set id b).get? id = some b := by
  simp [get?, set]

theorem get?_set_of_ne {other : Nat} (h : id ≠ other) (b : NamedBit) :
    (names.set other b).get? id = names.get? id := by
  have hKey : (id == other) = false := beq_eq_false_iff_ne.mpr h
  simp [get?, set, List.lookup_cons, hKey]

theorem get?_offer_self (names : BitNames) (id : Nat) (b : NamedBit) :
    (names.offer id b).get? id = NamedBit.prefer (names.get? id) (some b) := by
  unfold offer
  cases hBest : names.get? id with
  | none => exact get?_set_self names id b
  | some best =>
    dsimp only
    rw [NamedBit.prefer]
    split
    · exact get?_set_self names id b
    · exact hBest

theorem get?_offer_of_ne {other : Nat} (h : id ≠ other) (b : NamedBit) :
    (names.offer other b).get? id = names.get? id := by
  unfold offer
  split
  · exact get?_set_of_ne h b
  · split
    · exact get?_set_of_ne h b
    · rfl

/-- The positions of one net name, from some position on: only the first one of the net matters. -/
theorem get?_offerBits (n : NetName) (names : BitNames) (i : Nat) (bits : List Bit) (id : Nat) :
    (names.offerBits n i bits).get? id =
      NamedBit.prefer (names.get? id) ((bits.idxOf? (.net id)).map fun k => ⟨n, i + k⟩) := by
  induction bits generalizing names i with
  | nil =>
    rw [offerBits]
    cases names.get? id <;> rfl
  | cons bit bits ih =>
    -- a bit that is not the net moves it one position on
    have hMoved : ((bits.idxOf? (.net id)).map (· + 1)).map (fun k => (⟨n, i + k⟩ : NamedBit)) =
        (bits.idxOf? (.net id)).map fun k => ⟨n, i + 1 + k⟩ := by
      rw [Option.map_map]
      refine Option.map_congr fun k _ => ?_
      show (⟨n, i + (k + 1)⟩ : NamedBit) = ⟨n, i + 1 + k⟩
      rw [Nat.add_right_comm, Nat.add_assoc]
    cases bit with
    | const level =>
      rw [offerBits, ih, List.idxOf?_cons, if_neg (by simp), hMoved]
    | net other =>
      rw [offerBits, ih, List.idxOf?_cons]
      by_cases hSame : id = other
      · subst hSame
        rw [if_pos (by simp), get?_offer_self]
        refine NamedBit.prefer_same_net _ n i fun b hb => ?_
        obtain ⟨k, -, rfl⟩ := Option.map_eq_some_iff.mp hb
        rfl
      · rw [if_neg (by simpa using Ne.symm hSame), hMoved, get?_offer_of_ne hSame]

end BitNames

-- ---------------------------------------------------------------------------
-- The best of some names
-- ---------------------------------------------------------------------------

/-- The bit is the net in the first of its names of least rank. -/
structure NamedBit.FirstLeast (id : Nat) (ns : List NetName) (b : NamedBit) : Prop where
  located : b.net.locate? id = some b
  split   : ∃ before after, ns = before ++ b.net :: after ∧
    (∀ n ∈ before, .net id ∈ n.bits → b.net.rank < n.rank) ∧
      ∀ n ∈ after, .net id ∈ n.bits → b.net.rank ≤ n.rank

namespace NamedBit.FirstLeast

variable {id : Nat} {ns : List NetName} {b : NamedBit}

theorem mem (h : b.FirstLeast id ns) : b.net ∈ ns := by
  obtain ⟨before, after, rfl, -, -⟩ := h.split
  simp

theorem bit_eq (h : b.FirstLeast id ns) : b.net.bits[b.position]? = some (.net id) :=
  (NetName.locate?_eq_some_iff.mp h.located).2.1

theorem rank_le (h : b.FirstLeast id ns) {n : NetName} (hn : n ∈ ns) (hNet : .net id ∈ n.bits) :
    b.net.rank ≤ n.rank := by
  obtain ⟨before, after, rfl, hBefore, hAfter⟩ := h.split
  rcases List.mem_append.mp hn with hn | hn
  · exact Nat.le_of_lt (hBefore n hn hNet)
  · rcases List.mem_cons.mp hn with rfl | hn
    · exact Nat.le_refl _
    · exact hAfter n hn hNet

/-- A name that is no better is left behind. -/
theorem keep (h : b.FirstLeast id ns) {n : NetName} (hRank : .net id ∈ n.bits → b.net.rank ≤ n.rank) :
    b.FirstLeast id (ns ++ [n]) := by
  obtain ⟨before, after, rfl, hBefore, hAfter⟩ := h.split
  refine ⟨h.located, before, after ++ [n], by simp, hBefore, fun n' hn' => ?_⟩
  rcases List.mem_append.mp hn' with hn' | hn'
  · exact hAfter n' hn'
  · rw [List.mem_singleton.mp hn']
    exact hRank

/-- A name that is better than all the names of the net is the new best one. -/
theorem replace {n : NetName} (hLocate : n.locate? id = some b)
    (hLess : ∀ n' ∈ ns, .net id ∈ n'.bits → n.rank < n'.rank) : b.FirstLeast id (ns ++ [n]) := by
  obtain ⟨rfl, -⟩ := NetName.locate?_eq_some_iff.mp hLocate
  exact ⟨hLocate, ns, [], rfl, hLess, by simp⟩

end NamedBit.FirstLeast

/-- What is best among some names: the first of least rank that has the net, and nothing if none has it. -/
def Chosen (id : Nat) (ns : List NetName) : Option NamedBit → Prop
  | none => ∀ n ∈ ns, .net id ∉ n.bits
  | some b => b.FirstLeast id ns

/-- **One more name.** -/
theorem Chosen.step {id : Nat} {ns : List NetName} {best : Option NamedBit} (h : Chosen id ns best) (n : NetName) :
    Chosen id (ns ++ [n]) (NamedBit.prefer best (n.locate? id)) := by
  cases hLocate : n.locate? id with
  | none =>
    have hNot : .net id ∉ n.bits := NetName.locate?_eq_none_iff.mp hLocate
    cases best with
    | none =>
      show ∀ n' ∈ ns ++ [n], .net id ∉ n'.bits
      rw [List.forall_mem_append, List.forall_mem_singleton]
      exact ⟨h, hNot⟩
    | some a => exact NamedBit.FirstLeast.keep h fun hNet => absurd hNet hNot
  | some b =>
    cases best with
    | none => exact .replace hLocate fun n' hn' hNet => absurd hNet (h n' hn')
    | some a =>
      obtain ⟨hNet, -⟩ := NetName.locate?_eq_some_iff.mp hLocate
      have hLeast : a.FirstLeast id ns := h
      rw [NamedBit.prefer, hNet]
      split
      · next hLess =>
        exact .replace hLocate fun n' hn' hHas => Nat.lt_of_lt_of_le hLess (hLeast.rank_le hn' hHas)
      · next hNotLess => exact hLeast.keep fun _ => Nat.le_of_not_lt hNotLess

namespace Module

/-- The preferred of some names of a net, where `best` was preferred before them. -/
def preferAmong (id : Nat) (best : Option NamedBit) (ns : List NetName) : Option NamedBit :=
  ns.foldl (fun best n => NamedBit.prefer best (n.locate? id)) best

theorem preferAmong_cons (id : Nat) (best : Option NamedBit) (n : NetName) (ns : List NetName) :
    preferAmong id best (n :: ns) = preferAmong id (NamedBit.prefer best (n.locate? id)) ns :=
  rfl

end Module

/-- **What all positions of some net names leave under a net** is the preferred of these names. -/
theorem BitNames.get?_offerAll (names : BitNames) (ns : List NetName) (id : Nat) :
    (names.offerAll ns).get? id = Module.preferAmong id (names.get? id) ns := by
  induction ns generalizing names with
  | nil => rfl
  | cons n ns ih =>
    show ((names.offerBits n 0 n.bits).offerAll ns).get? id = _
    rw [ih, get?_offerBits, Module.preferAmong_cons, NetName.locate?]
    simp only [Nat.zero_add]

theorem Module.nameOf?_eq_preferAmong (m : Module) (id : Nat) :
    m.nameOf? id = preferAmong id none m.netnames :=
  BitNames.get?_offerAll ⟨[]⟩ m.netnames id

/-- **Any number of further names.** By induction on those that are left; what has been tried grows. -/
theorem Chosen.run {id : Nat} {seen : List NetName} {best : Option NamedBit} (h : Chosen id seen best)
    (ns : List NetName) : Chosen id (seen ++ ns) (Module.preferAmong id best ns) := by
  induction ns generalizing seen best with
  | nil => rwa [List.append_nil]
  | cons n ns ih =>
    rw [Module.preferAmong_cons, ← List.singleton_append, ← List.append_assoc]
    exact ih (h.step n)

namespace Module

variable {m : Module} {id : Nat}

/-- The name of a net in a module is the best of all its names there. -/
theorem chosen_nameOf? (m : Module) (id : Nat) : Chosen id m.netnames (m.nameOf? id) := by
  have hStart : Chosen id [] none := by simp [Chosen]
  rw [nameOf?_eq_preferAmong]
  exact hStart.run m.netnames

/-- A net that has a name has a preferred one. -/
theorem exists_nameOf? (hNamed : ∃ n ∈ m.netnames, .net id ∈ n.bits) :
    ∃ b, m.nameOf? id = some b ∧ b.FirstLeast id m.netnames := by
  have hChosen := m.chosen_nameOf? id
  cases hName : m.nameOf? id with
  | none =>
    rw [hName] at hChosen
    obtain ⟨n, hn, hNet⟩ := hNamed
    exact absurd hNet (hChosen n hn)
  | some b =>
    rw [hName] at hChosen
    exact ⟨b, rfl, hChosen⟩

/-- **The preferred name of a net.** It is the first in the order of declaration among the best names of the
net: public before hidden, then of fewest levels. The net is shown at its first position under that name. A net
with a public name is never shown under a hidden one. -/
theorem nameOf?_preferred (hLevels : ∀ n ∈ m.netnames, levelsOf n.name ≤ 1000)
    (hNamed : ∃ n ∈ m.netnames, .net id ∈ n.bits) :
    ∃ b before after, m.nameOf? id = some b ∧ m.netnames = before ++ b.net :: after ∧
      (∀ n ∈ before, .net id ∈ n.bits → b.net.preference < n.preference) ∧
      (∀ n ∈ after, .net id ∈ n.bits → b.net.preference ≤ n.preference) ∧
      b.net.bits[b.position]? = some (.net id) ∧ (∀ i < b.position, b.net.bits[i]? ≠ some (.net id)) ∧
      ((∃ n ∈ m.netnames, .net id ∈ n.bits ∧ n.hidden = false) → b.net.hidden = false) := by
  obtain ⟨b, hName, hLeast⟩ := exists_nameOf? hNamed
  have hOwn : levelsOf b.net.name ≤ 1000 := hLevels b.net hLeast.mem
  obtain ⟨-, hAt, hFirst⟩ := NetName.locate?_eq_some_iff.mp hLeast.located
  obtain ⟨before, after, hSplit, hBefore, hAfter⟩ := hLeast.split
  refine ⟨b, before, after, hName, hSplit, fun n hn hNet => ?_, fun n hn hNet => ?_, hAt, hFirst, ?_⟩
  · exact (NetName.rank_lt_iff hOwn (hLevels n (by simp [hSplit, hn]))).mp (hBefore n hn hNet)
  · exact (NetName.rank_le_iff hOwn (hLevels n (by simp [hSplit, hn]))).mp (hAfter n hn hNet)
  · rintro ⟨n, hn, hNet, hPublic⟩
    have hLe := (NetName.rank_le_iff hOwn (hLevels n hn)).mp (hLeast.rank_le hn hNet)
    exact NetName.hidden_of_preference_le hLe hPublic

end Module

/-! ## A net with many names -/

/-- The net 5 has a hidden name of one level, a public one of three levels and two public ones of two levels. It
stands twice in the first of the last two. -/
def manyNames : Module :=
  { name := "top", attributes := [], parameters := [], ports := [], cells := []
    netnames :=
      [⟨"$12", [.net 5], true, false⟩, ⟨"a.b.c", [.net 5, .net 6], false, false⟩,
        ⟨"core.state", [.const .zero, .net 6, .net 5, .net 5], false, true⟩,
        ⟨"bus.state", [.net 5], false, false⟩]
    blackbox := false }

theorem manyNames_preferred : (∀ n ∈ manyNames.netnames, levelsOf n.name ≤ 1000) ∧
    (∃ n ∈ manyNames.netnames, .net 5 ∈ n.bits) ∧
    ∃ b before after, manyNames.nameOf? 5 = some b ∧ b.net.name = "core.state" ∧ b.position = 2 ∧
      manyNames.netnames = before ++ b.net :: after ∧
      (∀ n ∈ before, .net 5 ∈ n.bits → b.net.preference < n.preference) ∧
      (∀ n ∈ after, .net 5 ∈ n.bits → b.net.preference ≤ n.preference) ∧
      (∀ i < b.position, b.net.bits[i]? ≠ some (.net 5)) ∧ b.net.hidden = false := by
  have hLevels : ∀ n ∈ manyNames.netnames, levelsOf n.name ≤ 1000 := by decide
  have hNamed : ∃ n ∈ manyNames.netnames, .net 5 ∈ n.bits := by decide
  obtain ⟨b, before, after, hName, hSplit, hBefore, hAfter, -, hFirst, hPublic⟩ :=
    Module.nameOf?_preferred hLevels hNamed
  have hFound : (manyNames.nameOf? 5).map (fun b => (b.net.name, b.position)) = some ("core.state", 2) := by decide
  rw [hName] at hFound
  obtain ⟨hCore, hPosition⟩ := Prod.mk.inj (Option.some.inj hFound)
  exact ⟨hLevels, hNamed, b, before, after, hName, hCore, hPosition, hSplit, hBefore, hAfter, hFirst,
    hPublic (by decide)⟩

end ProbeAtlas
