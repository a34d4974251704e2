import FusionInspect.CommandLine.Run

/-!
# The program

Reads from the file system what an invocation needs, runs the invocation on it, and writes what comes
out. The configuration file is read first. It tells the folders to read: the packages root for its
names, and the folders of each package with everything in them.
-/

namespace FusionInspect.CommandLine

/-- The bytes of a file, if it can be read. -/
def readFile? (path : String) : IO (Option FileTree) := do
  try return some (.file (← IO.FS.readBinFile path))
  catch _ => return none

/-- The entries of a folder as a tree, so many levels deep. Nothing is given for what is no folder. -/
partial def readFolder? (levels : Nat) (path : String) : IO (Option FileTree) := do
  if levels == 0 then return some .empty
  try
    let mut entries : List (String × FileTree) := []
    for entry in ← ((← IO.currentDir) / path).readDir do
      let below := path ++ "/" ++ entry.fileName
      let found ←
        if ← entry.path.isDir then readFolder? (levels - 1) below
        else if levels == 1 then pure (some (.file .empty))
        else readFile? below
      if let some tree := found then entries := (entry.fileName, tree) :: entries
    return some (.folder entries)
  catch _ => return none

/-- A disk with what stands at a path added, if anything does. -/
def add (disk : Disk) (path : String) (found : Option FileTree) : Disk :=
  match found with
  | some tree => disk.put path tree
  | none => disk

/-- Everything that an invocation reads. -/
def gather (i : Invocation) : IO Disk := do
  let working := (Path.segments (← IO.currentDir).toString).filter (· != "")
  let mut disk := (Disk.mk .empty working).putFolder "."
  if let some path := i.location.config then
    disk := add disk path ((← readFolder? 1 path) <|> (← readFile? path))
  if let .ok config := i.location.load disk then
    disk := add disk config.packagesRoot (← readFolder? 1 config.packagesRoot)
    for package in Catalogue.packages disk config do
      for base in config.basePaths package do
        disk := add disk base (← readFolder? 1000 base)
  return disk

/-- Runs the program; arguments that are not used rightly are refused. -/
def runProgram (args : List String) : IO UInt32 := do
  match invocation? args with
  | none =>
    IO.eprintln "usage: lint | show-object-tree [PATH] | debug-prototype NAME | list-prototypes"
    return usageExit.toUInt32
  | some i =>
    let outcome := i.run (← gather i)
    IO.print outcome.stdout
    IO.eprint outcome.stderr
    return outcome.exit.toUInt32

end FusionInspect.CommandLine

/-- The program. -/
def main (args : List String) : IO UInt32 :=
  FusionInspect.CommandLine.runProgram args
