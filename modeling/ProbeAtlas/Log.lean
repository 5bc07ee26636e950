import ProbeAtlas.Text.Search
import ProbeAtlas.Text.Units

/-!
# ProbeAtlas — the message log

A log is a list of entries, oldest first. A stage that reports its findings returns a `Logged` value:
the value and the entries it posted. A stage has no access to the entries before it, so earlier
entries cannot change; running one stage after another appends.

An entry prints as its text indented by two blanks a level. An entry with a negative level or with a line
of too many units can be recorded, but has no printed form.
-/

namespace ProbeAtlas

/-- One message and its indentation level. -/
structure Entry where
  level : Int
  text : String
deriving DecidableEq, Repr

abbrev Log := List Entry

namespace Entry

/-- The greatest number of 16-bit units in a line. -/
def maxLine : Nat := 536870888

/-- The printed form, if the entry has one. -/
def line? (e : Entry) : Option String :=
  if e.level < 0 ∨ maxLine < 2 * e.level.toNat + units16 e.text.toList then none
  else some (String.ofList (List.replicate (2 * e.level.toNat) ' ') ++ e.text)

/-- An entry reports an error iff its text begins with this word. -/
def errorMark : String := "Error"

def isError (e : Entry) : Bool :=
  errorMark.toList.isPrefixOf e.text.toList

end Entry

namespace Log

/-- The printed lines of the entries that have a printed form. -/
def lines (log : Log) : List String :=
  log.filterMap Entry.line?

/-- The printed lines, `none` if some entry has no printed form. -/
def lines? (log : Log) : Option (List String) :=
  log.mapM Entry.line?

/-- The texts of the entries that report errors. -/
def errors (log : Log) : List String :=
  (log.filter Entry.isError).map Entry.text

/-- Whether some entry's text contains `part`. -/
def mentions (log : Log) (part : String) : Bool :=
  log.any fun e => hasPart part e.text

end Log

/-- A value and the entries posted while it was computed. -/
structure Logged (α : Type) where
  value : α
  log : Log
deriving Repr

namespace Logged

instance : Monad Logged where
  pure a := ⟨a, []⟩
  bind x f := ⟨(f x.value).value, x.log ++ (f x.value).log⟩

variable {α β : Type}

@[simp] theorem value_pure (a : α) : (pure a : Logged α).value = a := rfl

@[simp] theorem log_pure (a : α) : (pure a : Logged α).log = [] := rfl

@[simp] theorem value_bind (x : Logged α) (f : α → Logged β) :
    (x >>= f).value = (f x.value).value := rfl

@[simp] theorem log_bind (x : Logged α) (f : α → Logged β) :
    (x >>= f).log = x.log ++ (f x.value).log := rfl

@[ext] theorem ext {x y : Logged α} (hv : x.value = y.value) (hl : x.log = y.log) : x = y := by
  cases x
  cases y
  simp_all

instance : LawfulMonad Logged := LawfulMonad.mk' Logged
  (fun x => by cases x; simp [Functor.map])
  (fun a f => by apply ext <;> simp)
  (fun x f g => by apply ext <;> simp [List.append_assoc])

/-- Posts one entry. -/
def post (level : Int) (text : String) : Logged Unit :=
  ⟨(), [⟨level, text⟩]⟩

@[simp] theorem log_post (level : Int) (text : String) : (post level text).log = [⟨level, text⟩] := rfl

/-- Posts the texts one after another at the same level. -/
def postAll (level : Int) (texts : List String) : Logged Unit :=
  ⟨(), texts.map fun t => ⟨level, t⟩⟩

@[simp] theorem log_postAll (level : Int) (texts : List String) :
    (postAll level texts).log = texts.map fun t => ⟨level, t⟩ := rfl

end Logged

end ProbeAtlas
