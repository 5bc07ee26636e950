import ProbeAtlas.CommandLine

/-!
# ProbeAtlas — the program

Runs the command line on the files of the disk.
-/

namespace ProbeAtlas

/-- The number by which the system says that a path leads through a file. -/
def notDirectoryCode : UInt32 := 20

/-- What the disk says about a path, in terms of `FileError`. -/
def diskError : IO.Error → FileError
  | .noFileOrDirectory .. => .notFound
  | .inappropriateType _ code _ => if code = notDirectoryCode then .notDirectory else .isDirectory
  | e => .other (toString e)

/-- Runs a disk operation and keeps its error. -/
def onDisk {α : Type} (action : IO α) : IO (Except FileError α) := do
  try
    return .ok (← action)
  catch e =>
    return .error (diskError e)

def disk : FileAccess IO where
  read path := onDisk (IO.FS.readFile path)
  write path text := onDisk (IO.FS.writeFile path text)

end ProbeAtlas

def main (args : List String) : IO UInt32 := do
  let outcome ← ProbeAtlas.runCommand ProbeAtlas.disk args
  for notice in outcome.notices do
    IO.eprintln notice.text
  -- a run that would go on for ever is given up
  return (outcome.exitStatus.getD 1).toUInt32
