import Mathlib.Tactic.Ring
import ProbeAtlas.Json.Reader
import ProbeAtlas.Netlist.Bit
import ProbeAtlas.Proofs.LiteralCodec
import ProbeAtlas.Proofs.ShortestDecimal

/-!
# ProbeAtlas — net numbers read back

A net without a name is shown under its number. Small numbers are shown by their digits. A number of more
than 53 bits is shown by the shortest decimal that is nearest to it, with an exponent from `10 ^ 21` on, so
what is shown are not the digits of the number. Read as a number of a netlist, it is that number again.

Main results:

* `netOfNumeral?_netText` — the text of a net number names that net.
* `isNet_iff` — numerals name net numbers only.
-/

namespace ProbeAtlas

/-- The numbers that a net can have: whole binary64 numbers. -/
def IsNet (id : Nat) : Prop :=
  ∃ m e : Nat, m < 2 ^ 53 ∧ e ≤ 971 ∧ id = m * 2 ^ e

/-- The net that a numeral names in a netlist. -/
def netOfNumeral? (numeral : List Char) : Option Nat :=
  match Json.readNumber numeral with
  | some (.number n, []) => n.toInt?.bind Int.toNat?
  | _ => none

-- ---------------------------------------------------------------------------
-- Decimal digits
-- ---------------------------------------------------------------------------

theorem isDigit_toDigits (n : Nat) : ∀ c ∈ Nat.toDigits 10 n, c.isDigit = true := fun _ hc =>
  Nat.isDigit_of_mem_toDigits (by decide) (by decide) hc

theorem toString_injective : Function.Injective (toString : Nat → String) := by
  intro a b h
  rw [Nat.toString_eq_ofList_toDigits, Nat.toString_eq_ofList_toDigits, String.ofList_inj] at h
  rw [← Nat.ofDigitChars_ten_toDigits (n := a), h, Nat.ofDigitChars_ten_toDigits]

/-- A positive number does not begin with a zero. -/
theorem toDigits_eq_cons {n : Nat} (h : n ≠ 0) : ∃ c ds, Nat.toDigits 10 n = c :: ds ∧ c ≠ '0' := by
  have hDigit : ∀ k < 10, k ≠ 0 → k.digitChar ≠ '0' := by decide
  induction n using Nat.strongRecOn with
  | ind n ih =>
    rw [Nat.toDigits_eq_if (by decide)]
    split
    · next hSmall => exact ⟨_, [], rfl, hDigit n hSmall h⟩
    · obtain ⟨c, ds, hFront, hc⟩ := ih (n / 10) (by omega) (by omega)
      rw [hFront]
      exact ⟨c, ds ++ [(n % 10).digitChar], rfl, hc⟩

/-- A power of ten puts zeros behind the digits. -/
theorem toDigits_mul_pow {n : Nat} (h : n ≠ 0) (x : Nat) :
    Nat.toDigits 10 (n * 10 ^ x) = Nat.toDigits 10 n ++ List.replicate x '0' := by
  induction x with
  | zero => simp
  | succ x ih =>
    have hPositive : 0 < n * 10 ^ x := Nat.mul_pos (by omega) (Nat.pow_pos (by decide))
    have hStep : n * 10 ^ (x + 1) = 10 * (n * 10 ^ x) + 0 := by ring
    rw [hStep, ← Nat.toDigits_append_toDigits (by decide) hPositive (by decide), ih, Nat.toDigits_zero,
      List.append_assoc, List.replicate_succ']

-- ---------------------------------------------------------------------------
-- Reading
-- ---------------------------------------------------------------------------

namespace Json

variable {c : Char} {ds rest : List Char}

theorem readWhole_append (hc : c ≠ '0') (h : ∀ d ∈ c :: ds, d.isDigit = true)
    (hRest : ∀ d ∈ rest.head?, d.isDigit = false) :
    readWhole (c :: ds ++ rest) = some (c :: ds, rest) := by
  unfold readWhole
  split
  · next hZero => exact absurd (List.cons.inj hZero).1 hc
  · rw [spanDigits, Literal.span_append_of_forall h hRest]

theorem readFraction_append (hSome : ds ≠ []) (h : ∀ d ∈ ds, d.isDigit = true)
    (hRest : ∀ d ∈ rest.head?, d.isDigit = false) :
    readFraction ('.' :: ds ++ rest) = some (ds, rest) := by
  rw [List.cons_append, readFraction, spanDigits, Literal.span_append_of_forall h hRest]
  cases ds with
  | nil => exact absurd rfl hSome
  | cons d ds => rfl

theorem readExponent_plus (hSome : ds ≠ []) (h : ∀ d ∈ ds, d.isDigit = true) :
    readExponent ('e' :: '+' :: ds) = some ((Numeral.valueOf 10 ds : Int), []) := by
  have hEnd : ∀ d ∈ ([] : List Char).head?, d.isDigit = false := by simp
  have hDigits : spanDigits ds = (ds, []) := by
    have hSpan := Literal.span_append_of_forall h hEnd
    rwa [List.append_nil] at hSpan
  rw [readExponent, if_pos (by decide), exponentSign]
  dsimp only
  rw [hDigits]
  cases ds with
  | nil => exact absurd rfl hSome
  | cons d ds => rfl

/-- A number whose parts are read one after the other; it has no sign if it begins with a digit. -/
theorem readNumber_cons {whole fraction behind behind' : List Char} {exponent : Int}
    (hc : c.isDigit = true) (hWhole : readWhole (c :: ds) = some (whole, behind))
    (hFraction : readFraction behind = some (fraction, behind'))
    (hExponent : readExponent behind' = some (exponent, rest)) :
    readNumber (c :: ds) =
      some (.number (.ofDecimal false (Numeral.valueOf 10 (whole ++ fraction)) (exponent - fraction.length)),
        rest) := by
  have hSign : readNumber (c :: ds) = readUnsigned false (c :: ds) := by
    unfold readNumber
    split
    · next hMinus =>
      rw [(List.cons.inj hMinus).1] at hc
      exact absurd hc (by decide)
    · rfl
  simp only [hSign, readUnsigned, hWhole, hFraction, hExponent, Option.bind_eq_bind, Option.bind_some]
  rfl

/-- The digits of a whole number. -/
theorem readNumber_toDigits (n : Nat) :
    readNumber (Nat.toDigits 10 n) = some (.number (.ofDecimal false n 0), []) := by
  by_cases hn : n = 0
  · rw [hn]
    rfl
  · obtain ⟨c, ds, hDigits, hc⟩ := toDigits_eq_cons hn
    have hAll := isDigit_toDigits n
    have hValue : Numeral.valueOf 10 (Nat.toDigits 10 n) = n := Nat.ofDigitChars_ten_toDigits
    rw [hDigits] at hAll hValue ⊢
    have hEnd : ∀ d ∈ ([] : List Char).head?, d.isDigit = false := by simp
    have hWhole := readWhole_append hc hAll hEnd
    rw [List.append_nil] at hWhole
    rw [readNumber_cons (hAll c (List.mem_cons_self ..)) hWhole rfl rfl, List.append_nil, hValue]
    rfl

/-- A digit, a point and further digits if there are any, and an exponent. -/
theorem readNumber_scientific (hc : c ≠ '0') (h : ∀ d ∈ c :: ds, d.isDigit = true) (power : Nat) :
    readNumber (c :: (if ds = [] then [] else '.' :: ds) ++ 'e' :: '+' :: Nat.toDigits 10 power) =
      some (.number (.ofDecimal false (Numeral.valueOf 10 (c :: ds)) (power - ds.length)), []) := by
  have hFirst : c.isDigit = true := h c (List.mem_cons_self ..)
  have hOne : ∀ d ∈ [c], d.isDigit = true := by simpa using hFirst
  have hMark : ∀ d ∈ ('e' :: '+' :: Nat.toDigits 10 power).head?, d.isDigit = false := by
    rintro d ⟨⟩
    decide
  have hExponent : readExponent ('e' :: '+' :: Nat.toDigits 10 power) = some ((power : Int), []) := by
    rw [readExponent_plus Nat.toDigits_ne_nil (isDigit_toDigits power), Numeral.valueOf,
      Nat.ofDigitChars_ten_toDigits]
  by_cases hNone : ds = []
  · rw [if_pos hNone, hNone]
    exact readNumber_cons hFirst (readWhole_append hc hOne hMark) rfl hExponent
  · rw [if_neg hNone]
    have hPoint : ∀ d ∈ ('.' :: ds ++ 'e' :: '+' :: Nat.toDigits 10 power).head?, d.isDigit = false := by
      rintro d ⟨⟩
      decide
    have hDigits := readFraction_append hNone (fun d hd => h d (List.mem_cons_of_mem _ hd)) hMark
    exact readNumber_cons hFirst (readWhole_append hc hOne hPoint) hDigits hExponent

end Json

-- ---------------------------------------------------------------------------
-- Texts of numbers
-- ---------------------------------------------------------------------------

namespace Number

/-- A whole decimal that is not far out of range is read as the number nearest to it. -/
theorem ofDecimal_natCast {n x : Nat} (hn : n ≠ 0)
    (hSize : (Nat.toDigits 10 (n * 10 ^ x)).length ≤ 400) : ofDecimal false n x = ofNat (n * 10 ^ x) := by
  rw [toDigits_mul_pow hn, List.length_append, List.length_replicate] at hSize
  unfold ofDecimal
  dsimp only
  rw [if_neg (by omega), if_neg (by omega), if_pos (by omega), Int.toNat_natCast, Nat.pow_eq]
  rfl

/-- **The text of a whole decimal is read as the number nearest to it**, with or without an exponent. -/
theorem readNumber_text {n x : Nat} (hn : n ≠ 0)
    (hSize : (Nat.toDigits 10 (n * 10 ^ x)).length ≤ 400) :
    Json.readNumber (Decimal.text ⟨n, x⟩) = some (.number (ofNat (n * 10 ^ x)), []) := by
  have hPositive : n * 10 ^ x ≠ 0 := Nat.mul_ne_zero hn (Nat.pow_pos (by decide)).ne'
  unfold Decimal.text positionalLimit
  dsimp only
  by_cases hShort : ((Nat.toDigits 10 n).length : Int) + x ≤ 21
  · have hWhole := ofDecimal_natCast (n := n * 10 ^ x) (x := 0) hPositive (by simpa using hSize)
    rw [Nat.pow_zero, Nat.mul_one] at hWhole
    rw [if_pos ⟨by omega, hShort⟩, Int.toNat_natCast, ← toDigits_mul_pow hn, Json.readNumber_toDigits,
      ← hWhole]
    rfl
  · obtain ⟨c, ds, hDigits, hc⟩ := toDigits_eq_cons hn
    have hAll := isDigit_toDigits n
    have hValue : Numeral.valueOf 10 (Nat.toDigits 10 n) = n := Nat.ofDigitChars_ten_toDigits
    rw [hDigits] at hAll hValue hShort ⊢
    rw [List.length_cons] at hShort ⊢
    rw [if_neg (by omega), if_neg (by omega), if_neg (by omega), if_neg (by omega)]
    have hPower : (((ds.length + 1 : Nat) : Int) + x - 1).natAbs = ds.length + x := by omega
    have hRead := Json.readNumber_scientific hc hAll (ds.length + x)
    have hExponent : ((ds.length + x : Nat) : Int) - ds.length = x := by omega
    rw [hValue, hExponent, ofDecimal_natCast hn hSize] at hRead
    rw [hPower, ← hRead]
    cases ds with
    | nil => rfl
    | cons d ds => rfl

/-- A number of at most 53 bits is shifted to a mantissa of 53 bits. -/
theorem shift_bounds {n : Nat} (hn : n ≠ 0) (h : n < 2 ^ 53) :
    2 ^ 52 ≤ n * 2 ^ (52 - n.log2) ∧ n * 2 ^ (52 - n.log2) < 2 ^ 53 := by
  have hLog : n.log2 < 53 := (Nat.log2_lt hn).mpr h
  have hLeast : n.log2 + (52 - n.log2) = 52 := by omega
  have hMost : n.log2 + 1 + (52 - n.log2) = 53 := by omega
  constructor
  · calc 2 ^ 52 = 2 ^ n.log2 * 2 ^ (52 - n.log2) := by rw [← Nat.pow_add, hLeast]
      _ ≤ n * 2 ^ (52 - n.log2) := Nat.mul_le_mul_right _ (Nat.log2_self_le hn)
  · calc n * 2 ^ (52 - n.log2) < 2 ^ (n.log2 + 1) * 2 ^ (52 - n.log2) :=
          Nat.mul_lt_mul_of_pos_right Nat.lt_log2_self (Nat.two_pow_pos _)
      _ = 2 ^ 53 := by rw [← Nat.pow_add, hMost]

/-- Whole numbers of at most 53 bits are binary64 numbers. -/
theorem toInt?_ofNat {n : Nat} (hn : n ≠ 0) (h : n < 2 ^ 53) : (ofNat n).toInt? = some (n : Int) := by
  have hLog : n.log2 < 53 := (Nat.log2_lt hn).mpr h
  have hWhole : ∀ k, roundDiv k 1 = k := fun k =>
    roundDiv_eq (by decide) (by omega) (by omega) fun _ => by omega
  by_cases hFull : n.log2 = 52
  · rw [ofNat_eq (e := 0) (by omega) (hWhole n) hn, if_pos h, if_pos (by decide)]
    simp [toInt?]
  · have hUnits : exponentFor n 1 = -(52 - n.log2 : Nat) := by
      rw [exponentFor_one hn]
      omega
    obtain ⟨hLeast, hMost⟩ := shift_bounds hn h
    unfold ofNat ofRatio precision greatestExponent
    dsimp only
    rw [hUnits, inUnits_neg]
    dsimp only
    rw [hWhole, if_neg (by omega), Nat.pow_eq, if_pos hMost, if_pos (by omega), toInt?]
    dsimp only
    rw [if_neg (by omega), Int.neg_neg, Int.toNat_natCast, Nat.pow_eq, Nat.mul_mod_left,
      if_pos rfl, Nat.mul_div_cancel _ (Nat.two_pow_pos _)]
    rfl

end Number

-- ---------------------------------------------------------------------------
-- Net numbers
-- ---------------------------------------------------------------------------

/-- A large net number has a mantissa of 53 bits. -/
theorem IsNet.normalize {id : Nat} (h : IsNet id) (hLarge : 2 ^ 53 ≤ id) : ∃ m e : Nat,
    2 ^ 52 ≤ m ∧ m < 2 ^ 53 ∧ 1 ≤ e ∧ e ≤ 971 ∧ id = m * 2 ^ e := by
  obtain ⟨m, e, hm, he, rfl⟩ := h
  have hm0 : m ≠ 0 := by
    rintro rfl
    omega
  have hLog : m.log2 < 53 := (Nat.log2_lt hm0).mpr hm
  have hUpper : m < 2 ^ (m.log2 + 1) := Nat.lt_log2_self
  -- the exponent makes up for the bits that the mantissa lacks
  have hRoom : 53 < m.log2 + 1 + e := by
    have hProduct : m * 2 ^ e < 2 ^ (m.log2 + 1 + e) := by
      rw [Nat.pow_add]
      exact Nat.mul_lt_mul_of_pos_right hUpper (Nat.two_pow_pos e)
    exact (Nat.pow_lt_pow_iff_right (by decide)).mp (Nat.lt_of_le_of_lt hLarge hProduct)
  have hShift : 52 - m.log2 + (e - (52 - m.log2)) = e := by omega
  obtain ⟨hLeast, hMost⟩ := Number.shift_bounds hm0 hm
  refine ⟨m * 2 ^ (52 - m.log2), e - (52 - m.log2), hLeast, hMost, by omega, by omega, ?_⟩
  rw [Nat.mul_assoc, ← Nat.pow_add, hShift]

theorem netOfNumeral?_of_read {numeral : List Char} {n : Number} {id : Nat}
    (hRead : Json.readNumber numeral = some (.number n, [])) (hValue : n.toInt? = some (id : Int)) :
    netOfNumeral? numeral = some id := by
  unfold netOfNumeral?
  rw [hRead]
  simp [hValue, Int.toNat?]

/-- The text of a large number is read as that number. -/
theorem netOfNumeral?_text {m e : Nat} (hm : 2 ^ 52 ≤ m) (hm' : m < 2 ^ 53) (he : 1 ≤ e) (he' : e ≤ 971) :
    netOfNumeral? (Number.finite false m e).text.toList = some (m * 2 ^ e) := by
  obtain ⟨n, x, hShortest, hRounds⟩ := @Number.shortest_rounds m e hm hm'
  obtain ⟨hPositive, hUpper⟩ := hRounds.size hm hm'
  have hn : n ≠ 0 := by
    rintro rfl
    rw [Nat.zero_mul] at hPositive
    exact absurd hPositive (Nat.lt_irrefl 0)
  have hDigits : ∀ k, 0 < k → 54 + e ≤ 3 * k → (Nat.toDigits 10 (n * 10 ^ x)).length ≤ k := by
    intro k hPos hk
    rw [Nat.length_toDigits_le_iff (by decide) hPos]
    calc n * 10 ^ x < 2 ^ 54 * 2 ^ e := hUpper
      _ = 2 ^ (54 + e) := (Nat.pow_add ..).symm
      _ ≤ 2 ^ (3 * k) := Nat.pow_le_pow_right (by decide) hk
      _ = (2 ^ 3) ^ k := Nat.pow_mul ..
      _ ≤ 10 ^ k := Nat.pow_le_pow_left (by decide) k
  have hText : (Number.finite false m e).text = String.ofList (Number.Decimal.text ⟨n, x⟩) := by
    rw [Number.text, if_neg (by omega), hShortest]
    rfl
  rw [hText, String.toList_ofList]
  refine netOfNumeral?_of_read (Number.readNumber_text hn (hDigits 400 (by decide) (by omega))) ?_
  rw [Number.ofNat_of_rounds hm hm' he he' hRounds, Number.toInt?]
  dsimp only
  rw [if_pos (by omega), Int.toNat_natCast, Nat.pow_eq]
  rfl

/-- **The text of a net number names that net.** -/
theorem netOfNumeral?_netText {id : Nat} (h : IsNet id) : netOfNumeral? (netText id).toList = some id := by
  unfold netText exactBound
  split
  · next hSmall =>
    rw [Nat.toString_eq_ofList_toDigits, String.toList_ofList]
    refine netOfNumeral?_of_read (Json.readNumber_toDigits id) ?_
    by_cases hZero : id = 0
    · subst hZero
      rfl
    · have hSize : (Nat.toDigits 10 (id * 10 ^ 0)).length ≤ 400 := by
        have hDigits : (Nat.toDigits 10 (id * 10 ^ 0)).length ≤ 16 :=
          (Nat.length_toDigits_le_iff (by decide) (by decide)).mpr (by omega)
        omega
      have hRead := Number.ofDecimal_natCast hZero hSize
      rw [Nat.pow_zero, Nat.mul_one] at hRead
      exact (congrArg Number.toInt? hRead).trans (Number.toInt?_ofNat hZero hSmall)
  · next hLarge =>
    obtain ⟨m, e, hm, hm', he, he', rfl⟩ := h.normalize (by omega)
    rw [Number.ofNat_of_rounds hm hm' he he' (Number.rounds_self m e hm)]
    exact netOfNumeral?_text hm hm' he he'

/-- What is read is a decimal, rounded. -/
theorem Json.readNumber_eq_some {cs rest : List Char} {v : Value} (h : readNumber cs = some (v, rest)) :
    ∃ negative digits exponent, v = .number (.ofDecimal negative digits exponent) := by
  have hUnsigned : ∀ negative cs, readUnsigned negative cs = some (v, rest) →
      ∃ negative digits exponent, v = .number (.ofDecimal negative digits exponent) := by
    intro negative cs hRead
    simp only [readUnsigned, Option.bind_eq_bind, Option.bind_eq_some_iff, Option.pure_def,
      Option.some.injEq, Prod.mk.injEq] at hRead
    obtain ⟨_, -, _, -, _, -, hv, -⟩ := hRead
    exact ⟨_, _, _, hv.symm⟩
  unfold readNumber at h
  split at h
  · exact hUnsigned _ _ h
  · exact hUnsigned _ _ h

theorem Number.ofDecimal_finite {sign negative : Bool} {digits m : Nat} {exponent e : Int}
    (h : ofDecimal sign digits exponent = .finite negative m e) : m < 2 ^ 53 ∧ e ≤ 971 := by
  unfold ofDecimal at h
  dsimp only at h
  split at h
  · cases h
    decide
  · split at h
    · cases h
    · split at h
      · exact ofRatio_finite Nat.one_pos h
      · exact ofRatio_finite (Nat.pow_pos (by decide)) h

/-- A number in the range of binary64 that is whole and not negative is a net number. -/
theorem isNet_of_toInt? {negative : Bool} {m id : Nat} {e : Int} (hm : m < 2 ^ 53) (he : e ≤ 971)
    (h : (Number.finite negative m e).toInt? = some (id : Int)) : IsNet id := by
  have hSize : ∀ n : Nat, (if negative then -(n : Int) else n) = id → n = id := by
    intro n hn
    split at hn <;> omega
  unfold Number.toInt? at h
  dsimp only at h
  split at h
  · next hWhole =>
    have hId := hSize _ (Option.some.inj h)
    exact ⟨m, e.toNat, hm, by omega, hId.symm⟩
  · split at h
    · have hId := hSize _ (Option.some.inj h)
      refine ⟨id, 0, ?_, by decide, by simp⟩
      rw [← hId]
      exact Nat.lt_of_le_of_lt (Nat.div_le_self _ _) hm
    · cases h

/-- **Net numbers are what numerals name.** -/
theorem isNet_iff {id : Nat} : IsNet id ↔ ∃ numeral, netOfNumeral? numeral = some id := by
  constructor
  · intro h
    exact ⟨_, netOfNumeral?_netText h⟩
  · rintro ⟨numeral, h⟩
    unfold netOfNumeral? at h
    split at h
    · next n hRead =>
      obtain ⟨i, hValue, hId⟩ := Option.bind_eq_some_iff.mp h
      have hNat : i = id := by
        cases i with
        | ofNat k => exact congrArg Int.ofNat (Option.some.inj hId)
        | negSucc k => cases hId
      obtain ⟨negative, digits, exponent, hDecimal⟩ := Json.readNumber_eq_some hRead
      cases n with
      | infinite _ => cases hValue
      | nan => cases hValue
      | finite sign m e =>
        obtain ⟨hm, he⟩ := Number.ofDecimal_finite (Value.number.inj hDecimal).symm
        exact isNet_of_toInt? hm he (hNat ▸ hValue)
    · cases h

end ProbeAtlas
