import Mathlib.Tactic.Ring
import ProbeAtlas.Number.Shortest

/-!
# ProbeAtlas — the decimal of a large whole number

A whole number of more than 53 bits is a binary64 number if it is a mantissa of 53 bits times a power of
two, `m * 2 ^ e`. Its text shows the shortest decimal between the half-way points around it, and not its own
digits. The shortest decimal is whole again, because the search ends at the latest with the digits of the
number itself, and it rounds to the number, because it lies between the half-way points.

The search ends after seventeen digits. A grid of seventeen digits has steps of at most `10 ^ -16` of the
number, and the half-way points are further apart than that.

Main results:

* `ofNat_of_rounds` — what lies between the half-way points rounds to the number.
* `shortest_rounds` — the shortest decimal lies there, and it is whole.
-/

namespace ProbeAtlas.Number

-- ---------------------------------------------------------------------------
-- Rounding
-- ---------------------------------------------------------------------------

/-- What lies within half a unit is rounded to that unit, at exactly half only to an even one. -/
theorem roundDiv_eq {num den q : Nat} (hDen : 0 < den) (hLow : 2 * (q * den) ≤ 2 * num + den)
    (hHigh : 2 * num ≤ 2 * (q * den) + den)
    (hOdd : q % 2 = 1 → 2 * (q * den) < 2 * num + den ∧ 2 * num < 2 * (q * den) + den) :
    roundDiv num den = q := by
  have hSplit : num / den * den + num % den = num := Nat.div_add_mod' num den
  have hRest : num % den < den := Nat.mod_lt num hDen
  unfold roundDiv
  dsimp only
  generalize num / den = quotient at *
  generalize num % den = rest at *
  -- the unit is the quotient or the one above it
  have hAbove : quotient ≤ q := by
    by_contra hLess
    have := Nat.mul_le_mul_right den (show q + 1 ≤ quotient by omega)
    rw [Nat.add_mul, Nat.one_mul] at this
    omega
  have hBelow : q ≤ quotient + 1 := by
    by_contra hMore
    have := Nat.mul_le_mul_right den (show quotient + 2 ≤ q by omega)
    rw [Nat.add_mul] at this
    omega
  by_cases hSame : q = quotient
  · rw [← hSame] at hSplit ⊢
    rw [if_pos (by omega)]
  · have hNext : q = quotient + 1 := by omega
    have hUnit : q * den = quotient * den + den := by rw [hNext, Nat.add_mul, Nat.one_mul]
    rw [if_neg (by omega)]
    exact hNext.symm

/-- Only one of the two powers is more than one. -/
theorem inUnits_eq (num den : Nat) (e : Int) :
    inUnits num den e = (num * 2 ^ (-e).toNat, den * 2 ^ e.toNat) := by
  rw [inUnits]
  split
  · next hSign =>
    have hNone : (-e).toNat = 0 := by omega
    rw [hNone, Nat.pow_zero, Nat.mul_one, Nat.pow_eq]
  · next hSign =>
    have hNone : e.toNat = 0 := by omega
    rw [hNone, Nat.pow_zero, Nat.mul_one, Nat.pow_eq]

theorem inUnits_natCast (num den e : Nat) : inUnits num den e = (num, den * 2 ^ e) := by
  have hNone : (-(e : Int)).toNat = 0 := by omega
  rw [inUnits_eq, hNone, Int.toNat_natCast, Nat.pow_zero, Nat.mul_one]

theorem inUnits_neg (num den e : Nat) : inUnits num den (-e) = (num * 2 ^ e, den) := by
  have hNone : (-(e : Int)).toNat = 0 := by omega
  rw [inUnits_eq, hNone, Int.neg_neg, Int.toNat_natCast, Nat.pow_zero, Nat.mul_one]

/-- Larger units make smaller quotients. -/
theorem inUnits_div_lt {num den bound : Nat} {e e' : Int} (hDen : 0 < den) (he : e ≤ e')
    (h : (inUnits num den e).1 / (inUnits num den e).2 < bound) :
    (inUnits num den e').1 / (inUnits num den e').2 < bound := by
  rw [inUnits_eq] at h ⊢
  dsimp only at h ⊢
  rw [Nat.div_lt_iff_lt_mul (Nat.mul_pos hDen (Nat.two_pow_pos _))] at h ⊢
  -- both sides are scaled so that the units agree
  refine Nat.lt_of_mul_lt_mul_right (a := 2 ^ (-e).toNat) ?_
  calc num * 2 ^ (-e').toNat * 2 ^ (-e).toNat = num * 2 ^ (-e).toNat * 2 ^ (-e').toNat := by ring
    _ < bound * (den * 2 ^ e.toNat) * 2 ^ (-e').toNat :=
        Nat.mul_lt_mul_of_pos_right h (Nat.two_pow_pos _)
    _ = bound * den * 2 ^ (e.toNat + (-e').toNat) := by ring
    _ ≤ bound * den * 2 ^ (e'.toNat + (-e).toNat) :=
        Nat.mul_le_mul_left _ (Nat.pow_le_pow_right (by decide) (by omega))
    _ = bound * (den * 2 ^ e'.toNat) * 2 ^ (-e).toNat := by ring

/-- At its exponent a ratio has a mantissa of at most 53 bits, before it is rounded. -/
theorem div_exponentFor_lt {num den : Nat} (hDen : 0 < den) :
    (inUnits num den (exponentFor num den)).1 / (inUnits num den (exponentFor num den)).2 < 2 ^ 53 := by
  have hNum : num < 2 ^ (num.log2 + 1) := Nat.lt_log2_self
  have hLog : 2 ^ den.log2 ≤ den := Nat.log2_self_le hDen.ne'
  unfold exponentFor precision
  dsimp only
  generalize hLow : (num.log2 : Int) - den.log2 - (53 : Nat) = low
  refine inUnits_div_lt hDen (Int.le_max_left _ _) ?_
  rw [Nat.pow_eq]
  split
  · next hFits => exact hFits
  · rw [inUnits_eq]
    dsimp only
    rw [Nat.div_lt_iff_lt_mul (Nat.mul_pos hDen (Nat.two_pow_pos _))]
    have hPowers : num.log2 + 1 + (-(low + 1)).toNat = 53 + (den.log2 + (low + 1).toNat) := by omega
    calc num * 2 ^ (-(low + 1)).toNat < 2 ^ (num.log2 + 1) * 2 ^ (-(low + 1)).toNat :=
          Nat.mul_lt_mul_of_pos_right hNum (Nat.two_pow_pos _)
      _ = 2 ^ 53 * (2 ^ den.log2 * 2 ^ (low + 1).toNat) := by
          rw [← Nat.pow_add, ← Nat.pow_add, ← Nat.pow_add, hPowers]
      _ ≤ 2 ^ 53 * (den * 2 ^ (low + 1).toNat) :=
          Nat.mul_le_mul_left _ (Nat.mul_le_mul_right _ hLog)

/-- **A finite number has a mantissa of at most 53 bits** and an exponent in range. -/
theorem ofRatio_finite {sign negative : Bool} {num den m : Nat} {e : Int} (hDen : 0 < den)
    (h : ofRatio sign num den = .finite negative m e) : m < 2 ^ 53 ∧ e ≤ 971 := by
  have hQuotient := @div_exponentFor_lt num den hDen
  have hRound : ∀ n d, roundDiv n d ≤ n / d + 1 := by
    intro n d
    unfold roundDiv
    dsimp only
    split <;> omega
  have hMantissa := hRound (inUnits num den (exponentFor num den)).1 (inUnits num den (exponentFor num den)).2
  unfold ofRatio precision greatestExponent at h
  dsimp only at h
  rw [Nat.pow_eq] at h
  split at h
  · cases h
    decide
  · split at h
    · next hFits =>
      split at h
      · next hRange =>
        cases h
        exact ⟨hFits, hRange⟩
      · cases h
    · split at h
      · next hRange =>
        cases h
        exact ⟨by omega, hRange⟩
      · cases h

/-- A whole number has a mantissa of 53 bits. -/
theorem exponentFor_one {n : Nat} (h : n ≠ 0) : exponentFor n 1 = (n.log2 : Int) - 52 := by
  have hLog : 2 ^ n.log2 ≤ n := Nat.log2_self_le h
  have hOne : Nat.log2 1 = 0 := by decide
  unfold exponentFor leastExponent precision
  dsimp only
  rw [hOne, Nat.pow_eq]
  generalize hLow : (n.log2 : Int) - (0 : Nat) - (53 : Nat) = low
  have hQuotient : 2 ^ 53 ≤ (inUnits n 1 low).1 / (inUnits n 1 low).2 := by
    rw [inUnits_eq, Nat.le_div_iff_mul_le (Nat.mul_pos Nat.one_pos (Nat.two_pow_pos _)), Nat.one_mul]
    have hPowers : 53 + low.toNat = n.log2 + (-low).toNat := by omega
    calc 2 ^ 53 * 2 ^ low.toNat = 2 ^ n.log2 * 2 ^ (-low).toNat := by
          rw [← Nat.pow_add, ← Nat.pow_add, hPowers]
      _ ≤ n * 2 ^ (-low).toNat := Nat.mul_le_mul_right _ hLog
  rw [if_neg (by omega)]
  omega

/-- The number nearest to a whole number of more than 52 bits, given the rounded mantissa. -/
theorem ofNat_eq {n m e : Nat} (hLog : n.log2 = e + 52) (hRound : roundDiv n (2 ^ e) = m) (hm : m ≠ 0) :
    ofNat n =
      if m < 2 ^ 53 then if e ≤ 971 then .finite false m e else .infinite false
      else if e + 1 ≤ 971 then .finite false (m / 2) (e + 1 : Nat) else .infinite false := by
  have hn : n ≠ 0 := by
    rintro rfl
    exact absurd hLog (by simp)
  have hExponent : exponentFor n 1 = (e : Int) := by
    rw [exponentFor_one hn, hLog]
    omega
  unfold ofNat ofRatio precision greatestExponent
  dsimp only
  rw [hExponent, inUnits_natCast]
  dsimp only
  rw [Nat.one_mul, hRound, if_neg hm, Nat.pow_eq]
  refine if_congr Iff.rfl (if_congr (by omega) rfl rfl) (if_congr (by omega) rfl rfl)

/-- Below the least mantissa the half-way point is nearer. In quarters of a unit. -/
def below (m : Nat) : Nat :=
  if m = 2 ^ 52 then 1 else 2

/-- The whole number lies between the half-way points around `m * 2 ^ e`, which belong to the interval for
even mantissas. -/
def Rounds (m e n : Nat) : Prop :=
  (4 * m - below m) * 2 ^ e ≤ 4 * n ∧ 4 * n ≤ (4 * m + 2) * 2 ^ e ∧
    (m % 2 = 1 → (4 * m - below m) * 2 ^ e < 4 * n ∧ 4 * n < (4 * m + 2) * 2 ^ e)

theorem below_cases (m : Nat) : below m = 2 ∨ below m = 1 ∧ m = 2 ^ 52 := by
  unfold below
  split
  · next hLeast => exact Or.inr ⟨rfl, hLeast⟩
  · exact Or.inl rfl

theorem rounds_self (m e : Nat) (hm : 2 ^ 52 ≤ m) : Rounds m e (m * 2 ^ e) := by
  have hUnit : 0 < 2 ^ e := Nat.two_pow_pos e
  have hBelow : 0 < below m * 2 ^ e := Nat.mul_pos (by have := below_cases m; omega) hUnit
  have hValue : 0 < m * 2 ^ e := Nat.mul_pos (by omega) hUnit
  rw [Rounds, Nat.sub_mul, Nat.add_mul, Nat.mul_assoc]
  omega

/-- What rounds to a number is of the size of that number. -/
theorem Rounds.size {m e n : Nat} (hm : 2 ^ 52 ≤ m) (hm' : m < 2 ^ 53) (h : Rounds m e n) :
    0 < n ∧ n < 2 ^ 54 * 2 ^ e := by
  have hUnit : 0 < 2 ^ e := Nat.two_pow_pos e
  have hLeast : 2 ^ 52 * 2 ^ e ≤ (4 * m - below m) * 2 ^ e :=
    Nat.mul_le_mul_right _ (by have := below_cases m; omega)
  have hMost : (4 * m + 2) * 2 ^ e ≤ 2 ^ 55 * 2 ^ e := Nat.mul_le_mul_right _ (by omega)
  obtain ⟨hLow, hHigh, -⟩ := h
  omega

/-- **What lies between the half-way points rounds to the number.** Below a power of two the mantissa is
rounded in units of half the size, and comes out as that power. -/
theorem ofNat_of_rounds {m e n : Nat} (hm : 2 ^ 52 ≤ m) (hm' : m < 2 ^ 53) (he : 1 ≤ e) (he' : e ≤ 971)
    (h : Rounds m e n) : ofNat n = .finite false m e := by
  have hSize := h.size hm hm'
  rw [Rounds, Nat.sub_mul, Nat.add_mul, Nat.mul_assoc] at h
  obtain ⟨hLow, hHigh, hOdd⟩ := h
  have hUnit : 0 < 2 ^ e := Nat.two_pow_pos e
  have hBelow : below m * 2 ^ e ≤ 2 * 2 ^ e :=
    Nat.mul_le_mul_right _ (by have := below_cases m; omega)
  have hMost : m * 2 ^ e ≤ (2 ^ 53 - 1) * 2 ^ e := Nat.mul_le_mul_right _ (by omega)
  have hn : n ≠ 0 := hSize.1.ne'
  have hUpper : n < 2 ^ (e + 52 + 1) := by
    rw [Nat.add_assoc, Nat.pow_add, Nat.mul_comm]
    omega
  by_cases hInside : 2 ^ 52 * 2 ^ e ≤ n
  · have hLog : n.log2 = e + 52 := by
      rw [Nat.log2_eq_iff hn, Nat.pow_add, Nat.mul_comm]
      exact ⟨hInside, hUpper⟩
    have hRound : roundDiv n (2 ^ e) = m := by
      refine roundDiv_eq hUnit (by omega) (by omega) fun hParity => ?_
      have := hOdd hParity
      omega
    rw [ofNat_eq hLog hRound (by omega), if_pos hm', if_pos he']
  · -- only the least mantissa reaches below its power of two
    have hLeast : m = 2 ^ 52 := by
      by_contra hMore
      have := Nat.mul_le_mul_right (2 ^ e) (show 2 ^ 52 + 1 ≤ m by omega)
      rw [Nat.add_mul] at this
      omega
    obtain ⟨e, rfl⟩ : ∃ k, e = k + 1 := ⟨e - 1, by omega⟩
    have hHalf : 2 ^ (e + 1) = 2 * 2 ^ e := by rw [Nat.pow_succ, Nat.mul_comm]
    subst hLeast
    rw [below, if_pos rfl, hHalf] at hLow
    rw [hHalf] at hInside
    have hLog : n.log2 = e + 52 := by
      rw [Nat.log2_eq_iff hn, Nat.add_assoc, Nat.pow_add, Nat.pow_add]
      omega
    have hRound : roundDiv n (2 ^ e) = 2 ^ 53 :=
      roundDiv_eq (Nat.two_pow_pos e) (by omega) (by omega) fun hParity => absurd hParity (by decide)
    rw [ofNat_eq hLog hRound (by decide), if_neg (by decide), if_pos he']
    rfl

-- ---------------------------------------------------------------------------
-- Between the half-way points
-- ---------------------------------------------------------------------------

namespace Interval

theorem holds_iff {i : Interval} {n : Nat} : i.holds n = true ↔
    i.low ≤ n * i.den ∧ n * i.den ≤ i.high ∧
      (i.closed = false → i.low < n * i.den ∧ n * i.den < i.high) := by
  unfold holds
  cases hClosed : i.closed with
  | true => simp
  | false =>
    simp only [Bool.false_eq_true, if_false, Bool.and_eq_true, decide_eq_true_eq, forall_const]
    omega

theorem nearest?_holds {i : Interval} {n : Nat} (h : i.nearest? = some n) : i.holds n = true := by
  unfold nearest? at h
  dsimp only at h
  have hRound : roundDiv i.value i.den = i.value / i.den ∨ roundDiv i.value i.den = i.value / i.den + 1 := by
    unfold roundDiv
    dsimp only
    split
    · exact Or.inl rfl
    · exact Or.inr rfl
  split at h
  · next hFloor hCeil =>
    cases h
    rcases hRound with hRound | hRound
    · rw [hRound, hFloor]
    · rw [hRound, hCeil]
  · next hFloor _ =>
    cases h
    exact hFloor
  · next _ hCeil =>
    cases h
    exact hCeil
  · cases h

theorem not_holds_of_nearest? {i : Interval} (h : i.nearest? = none) :
    ¬i.holds (i.value / i.den) = true ∧ ¬i.holds (i.value / i.den + 1) = true := by
  unfold nearest? at h
  dsimp only at h
  split at h
  · cases h
  · cases h
  · cases h
  · next hFloor hCeil => exact ⟨by rw [hFloor]; decide, by rw [hCeil]; decide⟩

/-- If neither neighbour of the value lies in the interval, then the interval is no wider than a step, and
the value is no multiple of the step. -/
theorem width_le_of_nearest? {i : Interval} (h : i.nearest? = none) (hDen : 0 < i.den)
    (hLow : i.low < i.value) (hHigh : i.value < i.high) :
    i.high ≤ i.low + i.den ∧ i.value / i.den * i.den ≠ i.value := by
  have hFloor : i.value / i.den * i.den ≤ i.value := Nat.div_mul_le_self _ _
  have hCeil : i.value < i.value / i.den * i.den + i.den := Nat.lt_div_mul_add hDen
  obtain ⟨hFirst, hSecond⟩ := not_holds_of_nearest? h
  rw [holds_iff] at hFirst hSecond
  rw [Nat.add_mul, Nat.one_mul] at hSecond
  omega

/-- The interval around a whole number, in units of a quarter of the last place or in quarters. -/
theorem around_natCast (m e : Nat) : ∃ scale den, 0 < scale ∧ 0 < den ∧ 4 * scale = 2 ^ e * den ∧
    around m e = ⟨(4 * m - below m) * scale, 4 * m * scale, (4 * m + 2) * scale, den, m % 2 == 0⟩ := by
  have hScale : 4 * 2 ^ (e - 2) = 2 ^ e * 2 ^ (2 - e) := by
    rw [← Nat.pow_add, show 4 = 2 ^ 2 from rfl, ← Nat.pow_add]
    congr 1
    omega
  refine ⟨2 ^ (e - 2), 2 ^ (2 - e), Nat.two_pow_pos _, Nat.two_pow_pos _, hScale, ?_⟩
  have hUp : ((e : Int) - 2).toNat = e - 2 := by omega
  have hDown : (2 - (e : Int)).toNat = 2 - e := by omega
  have hBelow : (if m = Nat.pow 2 (precision - 1) ∧ leastExponent < (e : Int) then 1 else 2) = below m := by
    have hLeast : leastExponent < (e : Int) := by
      unfold leastExponent
      omega
    exact if_congr (and_iff_left hLeast) rfl rfl
  unfold around
  dsimp only
  rw [hBelow, hUp, hDown, Nat.pow_eq, Nat.pow_eq]

theorem onGrid_natCast (i : Interval) (x : Nat) : i.onGrid x = { i with den := i.den * 10 ^ x } := by
  have hUp : (-(x : Int)).toNat = 0 := by omega
  unfold onGrid
  dsimp only
  rw [hUp, Int.toNat_natCast, Nat.pow_eq, Nat.pow_eq, Nat.pow_zero, Nat.mul_one, Nat.mul_one, Nat.mul_one]

end Interval

section Search

variable {m e : Nat}

/-- What the grid of `10 ^ x` finds between the half-way points rounds to the number. -/
theorem rounds_of_nearest? {x n : Nat} (h : ((Interval.around m e).onGrid x).nearest? = some n) :
    Rounds m e (n * 10 ^ x) := by
  obtain ⟨scale, den, -, hDen, hScale, hAround⟩ := Interval.around_natCast m e
  have hHolds := Interval.holds_iff.mp (Interval.nearest?_holds h)
  rw [hAround, Interval.onGrid_natCast] at hHolds
  dsimp only at hHolds
  obtain ⟨hLow, hHigh, hOpen⟩ := hHolds
  -- the ends are given in units of `1 / den`, and a quarter of the last place is `scale` of them
  have hEnds : ∀ a, 4 * (a * scale) = a * 2 ^ e * den := fun a => by
    rw [Nat.mul_left_comm, hScale, Nat.mul_assoc]
  have hPoint : 4 * (n * (den * 10 ^ x)) = 4 * (n * 10 ^ x) * den := by ring
  refine ⟨Nat.le_of_mul_le_mul_right ?_ hDen, Nat.le_of_mul_le_mul_right ?_ hDen, fun hOdd => ?_⟩
  · rw [← hEnds, ← hPoint]
    omega
  · rw [← hEnds, ← hPoint]
    omega
  · obtain ⟨hLow', hHigh'⟩ := hOpen (by simp [hOdd])
    refine ⟨Nat.lt_of_mul_lt_mul_right (a := den) ?_, Nat.lt_of_mul_lt_mul_right (a := den) ?_⟩
    · rw [← hEnds, ← hPoint]
      omega
    · rw [← hEnds, ← hPoint]
      omega

/-- The digits of the number itself are on the grid, and so is something between the half-way points if the
steps are a `10 ^ 16`th of the number. -/
theorem nearest?_ne_none {x : Nat} (hm : 2 ^ 52 ≤ m) (hm' : m < 2 ^ 53)
    (hGrid : x = 0 ∨ 10 ^ 16 * 10 ^ x ≤ m * 2 ^ e) :
    ((Interval.around m e).onGrid x).nearest? ≠ none := by
  intro hNone
  obtain ⟨scale, den, hScalePos, hDen, hScale, hAround⟩ := Interval.around_natCast m e
  have hBelow := below_cases m
  have hPositive : 0 < below m * scale := Nat.mul_pos (by omega) hScalePos
  have hLess : below m * scale ≤ 4 * m * scale := Nat.mul_le_mul_right _ (by omega)
  have hWide := Interval.width_le_of_nearest? hNone
  rw [hAround, Interval.onGrid_natCast] at hWide
  dsimp only at hWide
  rw [Nat.sub_mul, Nat.add_mul] at hWide
  obtain ⟨hWidth, hExact⟩ := hWide (Nat.mul_pos hDen (Nat.pow_pos (by decide))) (by omega) (by omega)
  rcases hGrid with rfl | hGrid
  · -- the value is `m * 2 ^ e` steps
    refine hExact ?_
    rw [Nat.pow_zero, Nat.mul_one]
    refine Nat.div_mul_cancel ⟨m * 2 ^ e, ?_⟩
    rw [Nat.mul_right_comm, hScale]
    ring
  · have hSteps : (2 + below m) * 2 ^ e * den ≤ 4 * 10 ^ x * den := by
      calc (2 + below m) * 2 ^ e * den = 4 * ((2 + below m) * scale) := by
            rw [Nat.mul_left_comm, hScale, Nat.mul_assoc]
        _ ≤ 4 * (den * 10 ^ x) := by
            rw [Nat.add_mul]
            omega
        _ = 4 * 10 ^ x * den := by ring
    have hStep : (2 + below m) * 2 ^ e ≤ 4 * 10 ^ x := Nat.le_of_mul_le_mul_right hSteps hDen
    have hMany : 10 ^ 16 * (2 + below m) * 2 ^ e ≤ 4 * m * 2 ^ e := by
      calc 10 ^ 16 * (2 + below m) * 2 ^ e = 10 ^ 16 * ((2 + below m) * 2 ^ e) := Nat.mul_assoc _ _ _
        _ ≤ 10 ^ 16 * (4 * 10 ^ x) := Nat.mul_le_mul_left _ hStep
        _ = 4 * (10 ^ 16 * 10 ^ x) := Nat.mul_left_comm _ _ _
        _ ≤ 4 * (m * 2 ^ e) := Nat.mul_le_mul_left _ hGrid
        _ = 4 * m * 2 ^ e := (Nat.mul_assoc _ _ _).symm
    have hTooMany : 10 ^ 16 * (2 + below m) ≤ 4 * m :=
      Nat.le_of_mul_le_mul_right hMany (Nat.two_pow_pos e)
    omega

/-- **The search ends with a whole decimal that rounds to the number**, after as many digits as the number
has, or after seventeen. -/
theorem searchDigits_rounds {places fuel count : Nat} (hm : 2 ^ 52 ≤ m) (hm' : m < 2 ^ 53)
    (hPlaces : 10 ^ (places - 1) ≤ m * 2 ^ e) (hFuel : fuel + count = 18) (hFirst : count ≤ 17)
    (hCount : count ≤ places) : ∃ n x : Nat,
      searchDigits (Interval.around m e) places fuel count = ⟨n, x⟩ ∧ Rounds m e (n * 10 ^ x) := by
  induction fuel generalizing count with
  | zero => omega
  | succ fuel ih =>
    have hGrid : (places : Int) - count = (places - count : Nat) := by omega
    rw [searchDigits, hGrid]
    split
    · next n hFound => exact ⟨n, places - count, rfl, rounds_of_nearest? hFound⟩
    · next hNone =>
      -- the grid was neither that of the last digit nor that of the seventeenth
      have hInside : ¬count = places := fun hLast =>
        nearest?_ne_none hm hm' (Or.inl (by omega)) hNone
      have hEarly : ¬count = 17 := by
        intro hLast
        refine nearest?_ne_none hm hm' (Or.inr ?_) hNone
        rw [← Nat.pow_add]
        have hExponent : 16 + (places - count) = places - 1 := by omega
        rwa [hExponent]
      exact ih (by omega) (by omega) (by omega)

end Search

/-- Dropping zeros at the end does not change the value. -/
theorem Decimal.strip_eq (fuel n x : Nat) : ∃ n' x' : Nat,
    Decimal.strip fuel ⟨n, x⟩ = ⟨n', x'⟩ ∧ n' * 10 ^ x' = n * 10 ^ x := by
  induction fuel generalizing n x with
  | zero => exact ⟨n, x, rfl, rfl⟩
  | succ fuel ih =>
    rw [strip]
    split
    · next hZero =>
      obtain ⟨n', x', hStrip, hValue⟩ := ih (n / 10) (x + 1)
      refine ⟨n', x', hStrip, ?_⟩
      calc n' * 10 ^ x' = n / 10 * 10 ^ (x + 1) := hValue
        _ = n / 10 * 10 * 10 ^ x := by ring
        _ = n * 10 ^ x := by rw [Nat.div_mul_cancel (Nat.dvd_of_mod_eq_zero hZero.1)]
    · exact ⟨n, x, rfl, rfl⟩

/-- **The shortest decimal of a large whole number** is whole and rounds to the number. -/
theorem shortest_rounds {m e : Nat} (hm : 2 ^ 52 ≤ m) (hm' : m < 2 ^ 53) :
    ∃ n x : Nat, shortest m e = ⟨n, x⟩ ∧ Rounds m e (n * 10 ^ x) := by
  obtain ⟨scale, den, hScalePos, hDen, hScale, hAround⟩ := Interval.around_natCast m e
  have hValue : 4 * m * scale = m * 2 ^ e * den := by
    rw [Nat.mul_right_comm, hScale]
    ring
  have hUnit : 0 < 2 ^ e := Nat.two_pow_pos e
  have hPositive : 0 < m * 2 ^ e := Nat.mul_pos (by omega) hUnit
  have hPoint : (Interval.around m e).point = (Nat.toDigits 10 (m * 2 ^ e)).length := by
    rw [hAround]
    unfold Interval.point
    dsimp only
    rw [hValue, if_pos (Nat.le_mul_of_pos_left _ hPositive), Nat.mul_div_cancel _ hDen]
  have hPlaces : 10 ^ ((Nat.toDigits 10 (m * 2 ^ e)).length - 1) ≤ m * 2 ^ e := by
    by_cases hOne : (Nat.toDigits 10 (m * 2 ^ e)).length - 1 = 0
    · rw [hOne]
      exact hPositive
    · refine Nat.le_of_not_lt fun hLess => ?_
      have := (Nat.length_toDigits_le_iff (by decide) (Nat.pos_of_ne_zero hOne)).mpr hLess
      omega
  have hFuel : 17 + 1 = 18 := rfl
  obtain ⟨n, x, hSearch, hRounds⟩ :=
    searchDigits_rounds hm hm' hPlaces hFuel (by decide) Nat.length_toDigits_pos
  obtain ⟨n', x', hStrip, hSame⟩ := Decimal.strip_eq 20 n x
  refine ⟨n', x', ?_, hSame ▸ hRounds⟩
  unfold shortest
  dsimp only
  rw [hPoint, hSearch, hStrip]

end ProbeAtlas.Number
