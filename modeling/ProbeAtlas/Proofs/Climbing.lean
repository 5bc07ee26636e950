import Mathlib.Data.List.Nodup
import Mathlib.Data.List.Chain
import Mathlib.Data.List.Perm.Subperm
import ProbeAtlas.Proofs.Ascent

/-!
# ProbeAtlas — the search for a unique path is exact

The search climbs without looking back, and a bound on the number of its steps is all that keeps it from
going round for ever. The bound is the number of modules. It cannot cut a way to the top short: an ascent
comes to every module at most once, so it has no more cells than there are modules. And a search that gets
as far as the bound has come to some module twice; from there it would go round.

Main results:

* `Design.Ascent.length_le` and `Design.climb_of_ascent` — every ascent is found.
* `Design.circles_of_chain` — the search is cut off only if it goes round.
* `Design.uniquePath?_exact` — which paths are found, after how many look-ups, and when the search is
  cut off.
-/

namespace ProbeAtlas

-- ---------------------------------------------------------------------------
-- How entries begin
-- ---------------------------------------------------------------------------

namespace Entry

/-- Whether the text of an entry begins with the given words. -/
def begins (words : String) (e : Entry) : Bool :=
  words.toList.isPrefixOf e.text.toList

theorem begins_lead (level : Int) (words rest : String) : begins words ⟨level, words ++ rest⟩ = true := by
  rw [begins, List.isPrefixOf_iff_prefix, String.toList_append]
  exact List.prefix_append ..

/-- A text whose lead departs from the words does not begin with them. -/
theorem not_begins_lead {words lead : String} (hWords : ¬ words.toList <+: lead.toList)
    (hLead : ¬ lead.toList <+: words.toList) (level : Int) (rest : String) :
    begins words ⟨level, lead ++ rest⟩ = false := by
  rw [begins, ← Bool.not_eq_true, List.isPrefixOf_iff_prefix, String.toList_append]
  intro h
  exact (List.prefix_or_prefix_of_prefix h (List.prefix_append ..)).elim hWords hLead

end Entry

theorem Logged.countP_post_bind {α : Type} (p : Entry → Bool) (level : Int) (text : String)
    (f : Unit → Logged α) : (post level text >>= f).log.countP p =
      (if p ⟨level, text⟩ then 1 else 0) + (f ()).log.countP p := by
  rw [log_bind, log_post, List.countP_append, List.countP_singleton]

namespace Design

variable {d : Design} {top target : String} {u : Use} {us : List Use}

-- ---------------------------------------------------------------------------
-- The only cell of its type
-- ---------------------------------------------------------------------------

/-- The whole design has one cell of this type. It has the given name and is in a module of the name
`holder`. -/
structure OnlyCell (d : Design) (type holder name : String) : Prop where
  single : (d.modules.flatMap Module.cells).countP (fun c => c.type = type) = 1
  placed : ∃ m ∈ d.modules, m.name = holder ∧ ∃ c ∈ m.cells, c.type = type ∧ c.name = name

theorem length_uses (d : Design) (type : String) :
    (d.uses type).length = (d.modules.flatMap Module.cells).countP fun c => c.type = type := by
  rw [uses, List.length_flatMap, List.countP_flatMap]
  refine congrArg List.sum (List.map_congr_left fun m _ => ?_)
  rw [List.length_map, ← List.countP_eq_length_filter]
  rfl

theorem onlyCell_iff {type holder name : String} : d.OnlyCell type holder name ↔
    ∃ u, d.uses type = [u] ∧ u.holder.name = holder ∧ u.cell.name = name := by
  constructor
  · rintro ⟨hSingle, m, hm, hHolder, c, hc, hType, hName⟩
    rw [← length_uses] at hSingle
    obtain ⟨u, hu⟩ := List.length_eq_one_iff.mp hSingle
    have hMem : (⟨m, c⟩ : Use) ∈ d.uses type := mem_uses.mpr ⟨hm, hc, hType⟩
    rw [hu, List.mem_singleton] at hMem
    subst hMem
    exact ⟨_, hu, hHolder, hName⟩
  · rintro ⟨u, hUses, hHolder, hName⟩
    obtain ⟨hm, hc, hType⟩ := mem_uses.mp (hUses ▸ List.mem_singleton_self u)
    refine ⟨?_, u.holder, hm, hHolder, u.cell, hc, hType, hName⟩
    rw [← length_uses, hUses, List.length_singleton]

-- ---------------------------------------------------------------------------
-- The length of an ascent
-- ---------------------------------------------------------------------------

namespace Ascent

/-- An ascent ends in the top. -/
theorem holder_last (h : d.Ascent top target us) {last : Use} (hLast : us.getLast? = some last) :
    last.holder.name = top := by
  induction h with
  | arrive _ hTop =>
    cases hLast
    exact hTop
  | climb _ _ hRest ih =>
    refine ih ?_
    rw [← hLast, List.getLast?_cons, List.getLast?_eq_some_getLast hRest.ne_nil]
    rfl

/-- An ascent comes to every module at most once. -/
theorem nodup_holders (h : d.Ascent top target us) : (us.map fun u => u.holder.name).Nodup := by
  induction h with
  | arrive => exact List.nodup_singleton _
  | @climb target u us hUses hTop hRest ih =>
    rw [List.map_cons, List.nodup_cons]
    refine ⟨fun hMem => ?_, ih⟩
    obtain ⟨v, hv, hName⟩ := List.mem_map.mp hMem
    -- the last cell is in the top, and none of the others leads back to where the rest begins
    rw [← List.dropLast_append_getLast hRest.ne_nil, List.mem_append, List.mem_singleton] at hv
    rcases hv with hv | hv
    · exact hRest.holder_ne hv hName
    · have hLast := hRest.holder_last (List.getLast?_eq_some_getLast hRest.ne_nil)
      rw [← hv, hName] at hLast
      exact hTop hLast

/-- **An ascent has no more cells than the design has modules.** -/
theorem length_le (h : d.Ascent top target us) : us.length ≤ d.modules.length := by
  have hSub : (us.map fun u => u.holder.name) ⊆ d.modules.map Module.name := by
    intro name hName
    obtain ⟨u, hu, rfl⟩ := List.mem_map.mp hName
    exact List.mem_map_of_mem (h.holder_mem hu)
  have hLength := (List.subperm_of_subset h.nodup_holders hSub).length_le
  rw [List.length_map, List.length_map] at hLength
  exact hLength

end Ascent

-- ---------------------------------------------------------------------------
-- Steps of the search
-- ---------------------------------------------------------------------------

section Step

variable {fuel : Nat} {chain : List String} {first : String}

open Logged (post)

/-- From a cell outside the top the search goes on. -/
theorem climb_succ (hUses : d.uses target = [u]) (hTop : u.holder.name ≠ top) :
    d.climb top (fuel + 1) target chain first = (do
      post 1 s!"Module: {target}"
      let _ ← d.postUses target
      d.climb top fuel u.holder.name (chain ++ [u.cell.name])
        (if chain = [] then u.holder.name else first)) := by
  have hFirst : (chain ++ [u.cell.name]).length = 1 ↔ chain = [] := by simp
  have hUsers : (d.postUses target).value = [u] := hUses
  rw [climb]
  apply Logged.ext <;>
    simp only [Logged.value_bind, Logged.log_bind, hUsers, if_neg hTop, hFirst]

/-- At a cell of the top the search ends. -/
theorem value_climb_top (hUses : d.uses target = [u]) (hTop : u.holder.name = top) :
    (d.climb top fuel target chain first).value =
      if (chain ++ [u.cell.name]).length < 2 then none
      else some ⟨if chain = [] then u.holder.name else first, chain ++ [u.cell.name]⟩ := by
  have hFirst : (chain ++ [u.cell.name]).length = 1 ↔ chain = [] := by simp
  have hUsers : (d.postUses target).value = [u] := hUses
  rw [climb]
  simp only [Logged.value_bind, hUsers, if_pos hTop, hFirst, value_arrive, Logged.value_pure]
  by_cases hShort : (chain ++ [u.cell.name]).length < 2
  · rw [if_pos hShort, if_pos hShort, Option.map_none]
  · rw [if_neg hShort, if_neg hShort, Option.map_some]

/-- **With steps enough the search finds every ascent that is long enough.** -/
theorem climb_of_ascent (h : d.Ascent top target us) (first : String) (hFuel : us.length ≤ fuel + 1)
    (hLong : 2 ≤ (chain ++ us.map fun u => u.cell.name).length) :
    ∃ u, us.head? = some u ∧ (d.climb top fuel target chain first).value =
      some ⟨if chain = [] then u.holder.name else first, chain ++ us.map fun u => u.cell.name⟩ := by
  induction h generalizing fuel chain first with
  | @arrive target u hUses hTop =>
    refine ⟨u, rfl, ?_⟩
    rw [value_climb_top hUses hTop]
    exact if_neg (Nat.not_lt.mpr hLong)
  | @climb target u us hUses hTop hRest ih =>
    refine ⟨u, rfl, ?_⟩
    cases fuel with
    | zero =>
      have := List.length_pos_iff.mpr hRest.ne_nil
      rw [List.length_cons] at hFuel
      omega
    | succ fuel =>
      have hRestLong : 2 ≤ ((chain ++ [u.cell.name]) ++ us.map fun u => u.cell.name).length := by
        rwa [List.append_assoc]
      obtain ⟨v, -, hv⟩ := ih (if chain = [] then u.holder.name else first)
        (Nat.le_of_succ_le_succ hFuel) hRestLong
      rw [climb_succ hUses hTop, Logged.value_bind, Logged.value_bind, hv, if_neg (by simp),
        List.append_assoc]
      rfl

end Step

-- ---------------------------------------------------------------------------
-- Going round
-- ---------------------------------------------------------------------------

/-- The only cell of the module is in `holder`, which is not the top. -/
def Climbs (d : Design) (top module holder : String) : Prop :=
  holder ≠ top ∧ ∃ name, d.OnlyCell module holder name

/-- Climbing from a module comes to one from which it comes back to the same. -/
def Circles (d : Design) (top target : String) : Prop :=
  ∃ m, Relation.ReflTransGen (d.Climbs top) target m ∧ Relation.TransGen (d.Climbs top) m m

theorem climbs_of_uses (hUses : d.uses target = [u]) (hTop : u.holder.name ≠ top) :
    d.Climbs top target u.holder.name :=
  ⟨hTop, _, onlyCell_iff.mpr ⟨u, hUses, rfl, rfl⟩⟩

/-- Who goes round takes another step and still goes round. -/
theorem Circles.exists_step (h : d.Circles top target) :
    ∃ u, d.uses target = [u] ∧ u.holder.name ≠ top ∧ d.Circles top u.holder.name := by
  have hStep : ∃ holder, d.Climbs top target holder ∧ d.Circles top holder := by
    obtain ⟨m, hReach, hRound⟩ := h
    rcases Relation.ReflTransGen.cases_head hReach with rfl | ⟨holder, hFirst, hRest⟩
    · obtain ⟨holder, hFirst, hBack⟩ := Relation.TransGen.head'_iff.mp hRound
      exact ⟨holder, hFirst, target, hBack, hRound⟩
    · exact ⟨holder, hFirst, m, hRest, hRound⟩
  obtain ⟨_, ⟨hTop, name, hOnly⟩, hCircles⟩ := hStep
  obtain ⟨u, hUses, rfl, -⟩ := onlyCell_iff.mp hOnly
  exact ⟨u, hUses, hTop, hCircles⟩

/-- **More steps than there are modules lead to some module twice.** -/
theorem circles_of_chain {names : List String} (h : List.IsChain (d.Climbs top) (target :: names))
    (hLength : d.modules.length < names.length) : d.Circles top target := by
  by_contra hNone
  have hTrans : List.Pairwise (Relation.TransGen (d.Climbs top)) (target :: names) :=
    (h.imp fun _ _ => Relation.TransGen.single).pairwise
  obtain ⟨hFrom, hBetween⟩ := List.pairwise_cons.mp hTrans
  -- a name that came again would lie above itself
  have hNodup : names.Nodup := by
    refine hBetween.imp_of_mem fun {a b} ha _ hab => ?_
    rintro rfl
    exact hNone ⟨a, (hFrom a ha).to_reflTransGen, hab⟩
  have hSub : names ⊆ d.modules.map Module.name := by
    intro name hName
    obtain ⟨_, -, -, _, -, m, hm, hHolder, -⟩ := Relation.TransGen.tail'_iff.mp (hFrom name hName)
    exact List.mem_map.mpr ⟨m, hm, hHolder⟩
  have hBound := (List.subperm_of_subset hNodup hSub).length_le
  rw [List.length_map] at hBound
  omega

-- ---------------------------------------------------------------------------
-- What the search posts
-- ---------------------------------------------------------------------------

/-- How the entry about every look-up begins. -/
def lookUpWords : String := "Module: "

/-- How the complaint of a search that is cut off begins. -/
def cutOffWords : String := "Error: instantiation loop through "

open Logged (post countP_post_bind)

section Posts

variable {words : String} (hWords : words = lookUpWords ∨ words = cutOffWords)

include hWords

theorem countP_postUses (d : Design) (target : String) :
    (d.postUses target).log.countP (Entry.begins words) = 0 := by
  have hQuiet : ∀ rest, Entry.begins words ⟨2, "Instantiated by " ++ rest⟩ = false := by
    rcases hWords with rfl | rfl <;> exact Entry.not_begins_lead (by decide) (by decide) 2
  rw [postUses, Logged.log_bind, Logged.log_pure, List.append_nil, Logged.log_postAll, List.countP_eq_zero]
  intro e he
  obtain ⟨text, hText, rfl⟩ := List.mem_map.mp he
  obtain ⟨u, -, rfl⟩ := List.mem_map.mp hText
  rw [String.append_assoc, String.append_assoc]
  exact Bool.not_eq_true _ ▸ hQuiet _

theorem countP_arrive (chain : List String) : (arrive chain).log.countP (Entry.begins words) = 0 := by
  have hTop : Entry.begins words ⟨3, "This is top module"⟩ = false := by
    rcases hWords with rfl | rfl <;> decide
  have hLevel : Entry.begins words
      ⟨3, "Error: Hierarchy level for OCLA Debug Subsystem is out of expectation"⟩ = false := by
    rcases hWords with rfl | rfl <;> decide
  have hChain : ∀ rest, Entry.begins words
      ⟨3, "Connection chain for OCLA Debug Subsystem: " ++ rest⟩ = false := by
    rcases hWords with rfl | rfl <;> exact Entry.not_begins_lead (by decide) (by decide) 3
  rw [arrive, countP_post_bind, hTop, if_neg (by decide), Nat.zero_add]
  split
  · rw [countP_post_bind, hLevel]
    rfl
  · rw [countP_post_bind, if_neg (Bool.not_eq_true _ ▸ hChain _)]
    rfl

end Posts

/-- How many look-ups a log reports. -/
def lookUps (log : Log) : Nat :=
  log.countP (Entry.begins lookUpWords)

/-- How many times a log says that the search was cut off. -/
def cutOffs (log : Log) : Nat :=
  log.countP (Entry.begins cutOffWords)

section Counts

variable {fuel : Nat} {chain : List String} {first : String}

/-- A look-up posts one entry about itself. Nothing that it lists is one or is the complaint. -/
theorem counts_round {α : Type} (d : Design) (target : String) (f : List Use → Logged α) :
    lookUps (do post 1 s!"Module: {target}"; let users ← d.postUses target; f users).log =
        lookUps (f (d.uses target)).log + 1 ∧
      cutOffs (do post 1 s!"Module: {target}"; let users ← d.postUses target; f users).log =
        cutOffs (f (d.uses target)).log := by
  have hLookUp : Entry.begins lookUpWords ⟨1, s!"Module: {target}"⟩ = true :=
    Entry.begins_lead 1 lookUpWords target
  have hCutOff : Entry.begins cutOffWords ⟨1, s!"Module: {target}"⟩ = false :=
    Entry.not_begins_lead (by decide) (by decide) 1 target
  constructor
  · rw [lookUps, countP_post_bind, if_pos hLookUp, Logged.log_bind, List.countP_append,
      countP_postUses (Or.inl rfl), Nat.zero_add, Nat.add_comm]
    rfl
  · rw [cutOffs, countP_post_bind, hCutOff, if_neg (by decide), Logged.log_bind, List.countP_append,
      countP_postUses (Or.inr rfl), Nat.zero_add, Nat.zero_add]
    rfl

theorem ends_or_goes_on (d : Design) (top target : String) :
    (∀ u, d.uses target = [u] → u.holder.name = top) ∨ ∃ u, d.uses target = [u] ∧ u.holder.name ≠ top := by
  by_cases hOn : ∃ u, d.uses target = [u] ∧ u.holder.name ≠ top
  · exact Or.inr hOn
  · push Not at hOn
    exact Or.inl hOn

/-- Without a cell to go on from, or at the top, the search ends by itself. -/
theorem climb_ends (h : ∀ u, d.uses target = [u] → u.holder.name = top) :
    lookUps (d.climb top fuel target chain first).log = 1 ∧
      cutOffs (d.climb top fuel target chain first).log = 0 := by
  rw [climb, (counts_round d target _).1, (counts_round d target _).2]
  split
  · decide
  · next u hUses =>
    dsimp only
    rw [if_pos (h u hUses), Logged.log_bind, Logged.log_pure, List.append_nil, lookUps, cutOffs,
      countP_arrive (Or.inl rfl), countP_arrive (Or.inr rfl)]
    exact ⟨rfl, rfl⟩
  · have hLookUp : ∀ rest, Entry.begins lookUpWords ⟨2, "Error: instantiated " ++ rest⟩ = false :=
      Entry.not_begins_lead (by decide) (by decide) 2
    have hCutOff : ∀ rest, Entry.begins cutOffWords ⟨2, "Error: instantiated " ++ rest⟩ = false :=
      Entry.not_begins_lead (by decide) (by decide) 2
    rw [lookUps, cutOffs, countP_post_bind, countP_post_bind, String.append_assoc,
      if_neg (Bool.not_eq_true _ ▸ hLookUp _), if_neg (Bool.not_eq_true _ ▸ hCutOff _)]
    exact ⟨rfl, rfl⟩

/-- A search that would go on is cut off if no step is left. -/
theorem climb_cut (hUses : d.uses target = [u]) (hTop : u.holder.name ≠ top) :
    lookUps (d.climb top 0 target chain first).log = 1 ∧
      cutOffs (d.climb top 0 target chain first).log = 1 := by
  have hLookUp : Entry.begins lookUpWords
      ⟨2, s!"Error: instantiation loop through {u.holder.name}"⟩ = false :=
    Entry.not_begins_lead (by decide) (by decide) 2 u.holder.name
  have hCutOff : Entry.begins cutOffWords
      ⟨2, s!"Error: instantiation loop through {u.holder.name}"⟩ = true :=
    Entry.begins_lead 2 cutOffWords u.holder.name
  rw [climb, (counts_round d target _).1, (counts_round d target _).2, hUses]
  dsimp only
  rw [if_neg hTop, lookUps, cutOffs, countP_post_bind, countP_post_bind, hLookUp, hCutOff]
  exact ⟨rfl, rfl⟩

/-- A search that goes on posts the rest later. -/
theorem climb_on (hUses : d.uses target = [u]) (hTop : u.holder.name ≠ top) (fuel : Nat)
    (chain : List String) (first : String) :
    ∃ chain' first', lookUps (d.climb top (fuel + 1) target chain first).log =
        lookUps (d.climb top fuel u.holder.name chain' first').log + 1 ∧
      cutOffs (d.climb top (fuel + 1) target chain first).log =
        cutOffs (d.climb top fuel u.holder.name chain' first').log := by
  refine ⟨chain ++ [u.cell.name], if chain = [] then u.holder.name else first, ?_⟩
  rw [climb_succ hUses hTop]
  exact counts_round d target fun _ => _

/-- **At most one module more is looked up than steps are allowed.** -/
theorem lookUps_climb_le (d : Design) (top : String) (fuel : Nat) (target : String) (chain : List String)
    (first : String) : lookUps (d.climb top fuel target chain first).log ≤ fuel + 1 := by
  induction fuel generalizing target chain first with
  | zero =>
    obtain hEnds | ⟨u, hUses, hTop⟩ := d.ends_or_goes_on top target
    · rw [(climb_ends hEnds).1]
    · rw [(climb_cut hUses hTop).1]
  | succ fuel ih =>
    obtain hEnds | ⟨u, hUses, hTop⟩ := d.ends_or_goes_on top target
    · rw [(climb_ends hEnds).1]
      omega
    · obtain ⟨chain', first', hCount, -⟩ := climb_on hUses hTop fuel chain first
      rw [hCount]
      exact Nat.succ_le_succ (ih ..)

/-- A search that is cut off has gone one step further than it may. -/
theorem exists_chain_of_cutOff (h : 0 < cutOffs (d.climb top fuel target chain first).log) :
    ∃ names, List.IsChain (d.Climbs top) (target :: names) ∧ names.length = fuel + 1 := by
  induction fuel generalizing target chain first with
  | zero =>
    obtain hEnds | ⟨u, hUses, hTop⟩ := d.ends_or_goes_on top target
    · rw [(climb_ends hEnds).2] at h
      cases h
    · exact ⟨[u.holder.name], List.isChain_pair.mpr (climbs_of_uses hUses hTop), rfl⟩
  | succ fuel ih =>
    obtain hEnds | ⟨u, hUses, hTop⟩ := d.ends_or_goes_on top target
    · rw [(climb_ends hEnds).2] at h
      cases h
    · obtain ⟨chain', first', -, hCount⟩ := climb_on hUses hTop fuel chain first
      rw [hCount] at h
      obtain ⟨names, hChain, hLength⟩ := ih h
      refine ⟨u.holder.name :: names, List.isChain_cons_cons.mpr ⟨climbs_of_uses hUses hTop, hChain⟩, ?_⟩
      rw [List.length_cons, hLength]

/-- A search that goes round is cut off, whatever the bound. -/
theorem Circles.cutOff (h : d.Circles top target) :
    0 < cutOffs (d.climb top fuel target chain first).log := by
  induction fuel generalizing target chain first with
  | zero =>
    obtain ⟨u, hUses, hTop, -⟩ := h.exists_step
    rw [(climb_cut hUses hTop).2]
    exact Nat.zero_lt_one
  | succ fuel ih =>
    obtain ⟨u, hUses, hTop, hRest⟩ := h.exists_step
    obtain ⟨chain', first', -, hCount⟩ := climb_on hUses hTop fuel chain first
    rw [hCount]
    exact ih hRest

end Counts

-- ---------------------------------------------------------------------------
-- Paths
-- ---------------------------------------------------------------------------

/-- The path leads from a module up to the top: `m i` is the module below the cell at position `i`, and
that cell is the only one of its type in the whole design. -/
structure Leads (d : Design) (top target : String) (path : UniquePath) (m : Nat → String) : Prop where
  foot  : m 0 = target
  head  : m path.chain.length = top
  below : ∀ i, 0 < i → i < path.chain.length → m i ≠ top
  cells : ∀ i name, path.chain[i]? = some name → d.OnlyCell (m i) (m (i + 1)) name
  long  : 2 ≤ path.chain.length
  first : path.instantiator = m 1

/-- The modules along an ascent. -/
theorem Ascent.exists_modules (h : d.Ascent top target us) :
    ∃ m : Nat → String, m 0 = target ∧ m us.length = top ∧ (∀ i, 0 < i → i < us.length → m i ≠ top) ∧
      ∀ i u, us[i]? = some u → d.uses (m i) = [u] ∧ u.holder.name = m (i + 1) := by
  induction h with
  | @arrive target u hUses hTop =>
    refine ⟨fun i => if i = 0 then target else top, rfl, rfl, ?_, ?_⟩
    · intro i hPos hLt
      rw [List.length_singleton] at hLt
      omega
    · intro i v hv
      cases i with
      | zero =>
        cases hv
        exact ⟨hUses, hTop⟩
      | succ i => cases hv
  | @climb target u us hUses hTop hRest ih =>
    obtain ⟨m, hFoot, hHead, hBelow, hCells⟩ := ih
    refine ⟨fun i => if i = 0 then target else m (i - 1), rfl, hHead, ?_, ?_⟩
    · intro i hPos hLt
      rw [List.length_cons] at hLt
      show (if i = 0 then target else m (i - 1)) ≠ top
      rw [if_neg (Nat.ne_of_gt hPos)]
      by_cases hFirst : i = 1
      · rw [hFirst, hFoot]
        exact hTop
      · exact hBelow (i - 1) (by omega) (by omega)
    · intro i v hv
      cases i with
      | zero =>
        cases hv
        exact ⟨hUses, hFoot.symm⟩
      | succ i => exact hCells i v hv

/-- Only cells one above another, the last of them in the top, are an ascent. -/
theorem exists_ascent {chain : List String} {m : Nat → String} (hSome : chain ≠ [])
    (hTop : m chain.length = top) (hBelow : ∀ i, 0 < i → i < chain.length → m i ≠ top)
    (hCells : ∀ i name, chain[i]? = some name → d.OnlyCell (m i) (m (i + 1)) name) :
    ∃ u us, d.Ascent top (m 0) (u :: us) ∧ ((u :: us).map fun u => u.cell.name) = chain ∧
      u.holder.name = m 1 := by
  induction chain generalizing m with
  | nil => exact absurd rfl hSome
  | cons name rest ih =>
    obtain ⟨u, hUses, hHolder, hName⟩ := onlyCell_iff.mp (hCells 0 name rfl)
    cases rest with
    | nil =>
      refine ⟨u, [], .arrive hUses (hHolder.trans hTop), ?_, hHolder⟩
      rw [List.map_singleton, hName]
    | cons next rest =>
      obtain ⟨v, vs, hAscent, hNames, -⟩ := ih (m := fun i => m (i + 1)) (List.cons_ne_nil next rest) hTop
        (fun i _ hLt => hBelow (i + 1) (Nat.succ_pos i) (Nat.succ_lt_succ hLt))
        (fun i name hi => hCells (i + 1) name hi)
      have hHere : u.holder.name ≠ top :=
        hHolder ▸ hBelow 1 Nat.zero_lt_one (Nat.succ_lt_succ (Nat.succ_pos _))
      refine ⟨u, v :: vs, .climb hUses hHere (hHolder ▸ hAscent), ?_, hHolder⟩
      rw [List.map_cons, hNames, hName]

/-- **The search finds a path iff it leads up to the top.** -/
theorem climb_eq_some_iff {path : UniquePath} :
    (d.climb top d.modules.length target [] "").value = some path ↔ ∃ m, d.Leads top target path m := by
  constructor
  · intro h
    obtain ⟨u, us, hAscent, hChain, hLong, hFirst⟩ := climb_ascent h
    obtain ⟨m, hFoot, hHead, hBelow, hCells⟩ := hAscent.exists_modules
    rw [List.nil_append] at hChain
    have hLength : path.chain.length = (u :: us).length := by rw [hChain, List.length_map]
    refine ⟨m, hFoot, hLength ▸ hHead, hLength ▸ hBelow, ?_, hLong, ?_⟩
    · intro i name hName
      rw [hChain, List.getElem?_map] at hName
      obtain ⟨v, hv, rfl⟩ := Option.map_eq_some_iff.mp hName
      obtain ⟨hUses, hHolder⟩ := hCells i v hv
      exact onlyCell_iff.mpr ⟨v, hUses, hHolder, rfl⟩
    · rw [hFirst, if_pos rfl]
      exact (hCells 0 u rfl).2
  · rintro ⟨m, hFoot, hHead, hBelow, hCells, hLong, hFirst⟩
    have hSome : path.chain ≠ [] := by
      rintro hNil
      rw [hNil] at hLong
      cases hLong
    obtain ⟨u, us, hAscent, hNames, hHolder⟩ := exists_ascent hSome hHead hBelow hCells
    rw [hFoot] at hAscent
    have hLongEnough : 2 ≤ (([] : List String) ++ (u :: us).map fun u : Use => u.cell.name).length := by
      rwa [List.nil_append, hNames]
    obtain ⟨v, hv, hClimb⟩ := climb_of_ascent hAscent "" (Nat.le_succ_of_le hAscent.length_le) hLongEnough
    cases hv
    rw [hClimb, if_pos rfl, hHolder, ← hFirst, List.nil_append, hNames]

section Climb

variable {m : Module} (hFlat : d.flattened = false) (hTop : d.topModule? = some m)

include hFlat hTop

theorem value_uniquePath? : (d.uniquePath? target).value =
    (d.climb m.name d.modules.length target [] "").value := by
  rw [uniquePath?, Logged.value_bind, hFlat, if_neg (by decide), hTop, Logged.value_bind]
  cases (d.climb m.name d.modules.length target [] "").value with
  | none => rfl
  | some path => rfl

/-- What is posted before and after climbing is no look-up and no complaint. -/
theorem countP_uniquePath? {words : String} (hWords : words = lookUpWords ∨ words = cutOffWords) :
    (d.uniquePath? target).log.countP (Entry.begins words) =
      (d.climb m.name d.modules.length target [] "").log.countP (Entry.begins words) := by
  have hTitle : Entry.begins words ⟨0, "Check uniqueness of OCLA Debug Subsystem"⟩ = false := by
    rcases hWords with rfl | rfl <;> decide
  have hLast : ∀ rest, Entry.begins words ⟨1, "OCLA Debug Subsystem Instantiator: " ++ rest⟩ = false := by
    rcases hWords with rfl | rfl <;> exact Entry.not_begins_lead (by decide) (by decide) 1
  rw [uniquePath?, countP_post_bind, hTitle, hFlat, if_neg (by decide), if_neg (by decide), hTop,
    Logged.log_bind, List.countP_append, Nat.zero_add]
  cases (d.climb m.name d.modules.length target [] "").value with
  | none => rfl
  | some path =>
    dsimp only
    rw [countP_post_bind, if_neg (Bool.not_eq_true _ ▸ hLast _)]
    rfl

end Climb

/-- **The search for a unique path is exact and ends.** It finds the paths that lead up to the top through
cells that are the only ones of their type. It looks up at most one module more than the design has, and
it is cut off iff climbing would go round. -/
theorem uniquePath?_exact (d : Design) (hFlat : d.flattened = false) (top : Module)
    (hTop : d.topModule? = some top) (target : String) :
    (∀ path, (d.uniquePath? target).value = some path ↔ ∃ m, d.Leads top.name target path m) ∧
      lookUps (d.uniquePath? target).log ≤ d.modules.length + 1 ∧
      (0 < cutOffs (d.uniquePath? target).log ↔ d.Circles top.name target) := by
  refine ⟨fun path => ?_, ?_, ?_⟩
  · rw [value_uniquePath? hFlat hTop]
    exact climb_eq_some_iff
  · rw [lookUps, countP_uniquePath? hFlat hTop (Or.inl rfl)]
    exact lookUps_climb_le ..
  · rw [cutOffs, countP_uniquePath? hFlat hTop (Or.inr rfl)]
    constructor
    · intro h
      obtain ⟨names, hChain, hLength⟩ := exists_chain_of_cutOff h
      exact circles_of_chain hChain (by omega)
    · exact Circles.cutOff

end Design

/-- A hub two cells below the top, and beside them two modules that hold each other. -/
def ringDesign : Design :=
  { modules :=
      [plain "top" [⟨"u", "wrapper", []⟩], plain "wrapper" [⟨"h", "hub", []⟩],
        plain "left" [⟨"r", "right", []⟩, ⟨"s", "stray", []⟩], plain "right" [⟨"l", "left", []⟩]]
    top := some "top"
    flattened := false }
where
  plain (name : String) (cells : List Cell) : Module :=
    { name, attributes := [], parameters := [], ports := [], cells, netnames := [], blackbox := false }

/-- The path of the hub is found, the wrapper is too close to the top, and the search for a cell in the ring is
cut off after as many look-ups as there can be. -/
theorem ringDesign_exact : ∃ top, ringDesign.flattened = false ∧ ringDesign.topModule? = some top ∧
    (∃ m, ringDesign.Leads top.name "hub" ⟨"wrapper", ["h", "u"]⟩ m) ∧
    (∀ path m, ¬ ringDesign.Leads top.name "wrapper" path m) ∧ ringDesign.Circles top.name "stray" ∧
    Design.lookUps (ringDesign.uniquePath? "stray").log = ringDesign.modules.length + 1 := by
  have hExact := Design.uniquePath?_exact ringDesign rfl _ rfl
  refine ⟨_, rfl, rfl, ?_, ?_, ?_, by decide +kernel⟩
  · exact ((hExact "hub").1 _).mp (by decide +kernel)
  · intro path m hLeads
    have hNone : (ringDesign.uniquePath? "wrapper").value = none := by decide +kernel
    rw [((hExact "wrapper").1 path).mpr ⟨m, hLeads⟩] at hNone
    cases hNone
  · exact (hExact "stray").2.2.mp (by decide +kernel)

end ProbeAtlas
