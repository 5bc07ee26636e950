import ProbeAtlas.Value.Entries

/-!
# ProbeAtlas — files

A program reads and writes texts by path. `FileAccess` is all it needs of the world; `Directory` is a
working directory held in memory, so that a run can be followed without a disk. Around it stands as much
of the usual tree of directories as can be known beforehand.
-/

namespace ProbeAtlas

/-- Why a file cannot be read or written. -/
inductive FileError where
  /-- There is no such file, or no directory for it. -/
  | notFound
  /-- The path leads to a directory. -/
  | isDirectory
  /-- The path leads through a file. -/
  | notDirectory
  | nameTooLong
  /-- The path holds a character that no path can hold. -/
  | invalidPath
  | other (reason : String)
deriving DecidableEq, Repr

def FileError.message : FileError → String
  | .notFound => "no such file or directory"
  | .isDirectory => "illegal operation on a directory"
  | .notDirectory => "not a directory"
  | .nameTooLong => "name too long"
  | .invalidPath => "invalid path"
  | .other reason => reason

/-- Reading and writing of whole files. -/
structure FileAccess (m : Type → Type) where
  read : String → m (Except FileError String)
  write : String → String → m (Except FileError Unit)

/-! ## A directory in memory -/

/-- The files of a working directory, by their plain paths. A directory below it exists as long as it
holds a file. -/
structure Directory where
  files : List (String × String)
deriving DecidableEq, Repr

/-- A directory on the way along a path. The working directory is a temporary one: it stands in the
directory for temporary files. -/
inductive Place where
  /-- The working directory or one below it, by the parts of its path, last first. -/
  | inside (parts : List String)
  /-- The directory for temporary files. -/
  | temporary
  /-- The directory of devices. -/
  | devices
  /-- Another directory of the root. -/
  | system
  | root
deriving DecidableEq, Repr

namespace Place

/-- The directories of the root that hold neither devices nor temporary files. -/
def systemNames : List String :=
  ["bin", "boot", "etc", "home", "lib", "media", "mnt", "opt", "proc", "root", "run", "sbin", "srv", "sys",
    "usr", "var"]

/-- The directory that holds this one; the root holds itself. -/
def parent : Place → Place
  | .inside [] => .temporary
  | .inside (_ :: parts) => .inside parts
  | _ => .root

/-- The directory with a name in the root. -/
def ofRoot? (name : String) : Option Place :=
  if name = "tmp" then some .temporary
  else if name = "dev" then some .devices
  else if name ∈ systemNames then some .system
  else none

end Place

/-- Where a path leads. -/
inductive Target where
  | directory
  /-- A name in a directory; `slash` if a slash follows it. -/
  | entry (place : Place) (name : String) (slash : Bool)
deriving DecidableEq, Repr

namespace Directory

/-- The plain path with the given parts, last first. -/
def plain (parts : List String) : String :=
  "/".intercalate parts.reverse

/-- Whether the parts lead to a directory. -/
def isFolder (d : Directory) (parts : List String) : Bool :=
  parts.isEmpty || d.files.any fun (name, _) => (plain parts ++ "/").toList.isPrefixOf name.toList

/-- The text of the file with the given parts. -/
def file? (d : Directory) (parts : List String) : Option String :=
  Entries.get? d.files (plain parts)

/-- What a name stands for in a directory. -/
inductive Holding where
  | folder (place : Place)
  | file (text : String)
  /-- A file that is always empty and swallows what is written to it. -/
  | sink
  | missing

/-- What stands under a name in a directory. Of directories outside little is known. -/
def entry (d : Directory) (place : Place) (name : String) : Holding :=
  match place with
  | .inside parts =>
    if d.isFolder (name :: parts) then .folder (.inside (name :: parts))
    else ((d.file? (name :: parts)).map .file).getD .missing
  | .root => ((Place.ofRoot? name).map .folder).getD .missing
  | .devices => if name = "null" then .sink else .missing
  | _ => .missing

/-- The greatest number of bytes in a name. -/
def maxName : Nat := 255

/-- The greatest number of bytes in a path. -/
def maxPath : Nat := 4095

/-- Goes from a directory to another one. -/
def enter (d : Directory) (place : Place) (part : String) : Except FileError Place :=
  if part = "" || part = "." then .ok place
  else if part = ".." then .ok place.parent
  else if maxName < part.utf8ByteSize then .error .nameTooLong
  else
    match d.entry place part with
    | .folder place => .ok place
    | .missing => .error .notFound
    | _ => .error .notDirectory

/-- Follows a path up to its last name. Every directory on the way has to exist, even if the path leaves
it again. -/
def resolve (d : Directory) (path : String) : Except FileError Target :=
  if path = "" then .error .notFound
  else if path.toList.contains '\x00' then .error .invalidPath
  else if maxPath < path.utf8ByteSize then .error .nameTooLong
  else
    let parts := path.splitOn "/"
    let start := if path.toList.head? == some '/' then .root else .inside []
    match parts.reverse.dropWhile (· = "") with
    | [] => .ok .directory
    | last :: before => do
      let place ← before.reverse.foldlM d.enter start
      if last = "." || last = ".." then return .directory
      else return .entry place last (parts.getLast? == some "")

/-- Reads the text of a file. -/
def read (d : Directory) (path : String) : Except FileError String := do
  match ← d.resolve path with
  | .directory => .error .isDirectory
  | .entry place name slash =>
    if maxName < name.utf8ByteSize then .error .nameTooLong
    else
      match d.entry place name with
      | .folder _ => .error .isDirectory
      | .missing => .error .notFound
      | .file text => if slash then .error .notDirectory else .ok text
      | .sink => if slash then .error .notDirectory else .ok ""

/-- Replaces or adds a file. What is written outside is lost from sight. -/
def write (d : Directory) (path text : String) : Except FileError Directory := do
  match ← d.resolve path with
  | .directory => .error .isDirectory
  | .entry place name slash =>
    if slash then .error .isDirectory
    else if maxName < name.utf8ByteSize then .error .nameTooLong
    else
      match d.entry place name, place with
      | .folder _, _ => .error .isDirectory
      | _, .inside parts => .ok ⟨Entries.put (plain (name :: parts)) text d.files⟩
      | _, _ => .ok d

/-- The directory with the given files. -/
def ofFiles (files : List (String × String)) : Directory :=
  ⟨files.foldl (fun acc (path, text) =>
    let parts := (path.splitOn "/").filter fun part => part ≠ "" && part ≠ "."
    Entries.put (plain parts.reverse) text acc) []⟩

/-- The files that are new or differ from an earlier state. -/
def changes (before after : Directory) : List (String × String) :=
  after.files.filter fun (name, text) => Entries.get? before.files name != some text

/-- File access that changes a directory in memory. -/
def access : FileAccess (StateM Directory) where
  read path := do
    return (← get).read path
  write path text := do
    match (← get).write path text with
    | .error e => return .error e
    | .ok d =>
      set d
      return .ok ()

end Directory

end ProbeAtlas
