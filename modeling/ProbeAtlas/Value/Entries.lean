/-!
# ProbeAtlas — entries of an object

The entries of an object are pairs of a key and a value, in the order in which they are visited. A key
that is put twice keeps its first place and takes its last value. Keys that are array indices, that
is, canonical decimals below `2 ^ 32 - 1`, come first and in ascending order; all other keys follow in
the order of their first insertion.
-/

namespace ProbeAtlas.Entries

variable {α : Type}

/-- The value under a key. -/
def get? (entries : List (String × α)) (key : String) : Option α :=
  (entries.find? fun e => e.1 == key).map Prod.snd

/-- Replaces the value under `key`, or adds the entry at the end. -/
def put (key : String) (value : α) : List (String × α) → List (String × α)
  | [] => [(key, value)]
  | (k, v) :: rest => if k = key then (k, value) :: rest else (k, v) :: put key value rest

/-- The key under which objects keep no entry. -/
def reservedKey : String := "__proto__"

/-- The first number that is no array index. -/
def indexLimit : Nat := 0xffffffff

/-- The array index that a key is: a decimal without sign and without leading zeros. -/
def index? (key : String) : Option Nat :=
  let digits := key.toList
  let n := Nat.ofDigitChars 10 digits 0
  if digits.all Char.isDigit ∧ digits.length ≤ 10 ∧ Nat.toDigits 10 n = digits ∧ n < indexLimit then
    some n
  else none

/-- Array indices first, ascending; the other entries keep their order. -/
def ordered (entries : List (String × α)) : List (String × α) :=
  let indexed := entries.filterMap fun e => (index? e.1).map fun i => (i, e)
  (indexed.mergeSort fun a b => a.1 ≤ b.1).map Prod.snd ++
    entries.filter fun e => (index? e.1).isNone

/-- The entries of an object written as the given pairs, one after another. -/
def ofPairs (pairs : List (String × α)) : List (String × α) :=
  ordered (pairs.foldl (fun entries pair => put pair.1 pair.2 entries) [])

theorem get?_put_self (key : String) (value : α) (entries : List (String × α)) :
    get? (put key value entries) key = some value := by
  induction entries with
  | nil => simp [put, get?]
  | cons e rest ih =>
    obtain ⟨k, v⟩ := e
    by_cases h : k = key
    · simp [put, get?, h]
    · simpa [put, get?, h] using ih

theorem get?_put_of_ne {key other : String} (h : other ≠ key) (value : α)
    (entries : List (String × α)) : get? (put key value entries) other = get? entries other := by
  induction entries with
  | nil => simp [put, get?, h.symm]
  | cons e rest ih =>
    obtain ⟨k, v⟩ := e
    by_cases hk : k = key
    · subst hk
      simp [put, get?, h.symm]
    · by_cases ho : k = other
      · subst ho
        simp [put, get?, h]
      · simpa [put, get?, hk, ho] using ih

end ProbeAtlas.Entries
