/-!
# ProbeAtlas — finding a part of a text

`breakAt? part text` cuts a text around the first occurrence of a part; containment and replacement
of the first occurrence follow from it.
-/

namespace ProbeAtlas

/-- What stands before and after the first occurrence of `part`. -/
def breakAt? (part : List Char) : List Char → Option (List Char × List Char)
  | [] => if part.isEmpty then some ([], []) else none
  | c :: cs =>
    if part.isPrefixOf (c :: cs) then some ([], (c :: cs).drop part.length)
    else (breakAt? part cs).map fun (before, after) => (c :: before, after)

/-- Whether `part` occurs in the text. -/
def hasPart (part text : String) : Bool :=
  (breakAt? part.toList text.toList).isSome

/-- The text with the first occurrence of `part` replaced. -/
def replaceFirst (part replacement text : String) : String :=
  match breakAt? part.toList text.toList with
  | some (before, after) => String.ofList (before ++ replacement.toList ++ after)
  | none => text

/-- A cut gives back the text. -/
theorem append_of_breakAt? {part text before after : List Char}
    (h : breakAt? part text = some (before, after)) : before ++ part ++ after = text := by
  induction text generalizing before after with
  | nil =>
    simp only [breakAt?] at h
    split at h
    · rename_i hp
      simp_all
    · simp at h
  | cons c cs ih =>
    simp only [breakAt?] at h
    split at h
    · rename_i hp
      obtain ⟨rest, hrest⟩ := List.isPrefixOf_iff_prefix.1 hp
      simp only [Option.some.injEq, Prod.mk.injEq] at h
      obtain ⟨rfl, rfl⟩ := h
      rw [← hrest]
      simp
    · obtain ⟨p, hp, he⟩ := Option.map_eq_some_iff.1 h
      simp only [Prod.mk.injEq] at he
      obtain ⟨rfl, rfl⟩ := he
      simp [← ih hp]

end ProbeAtlas
