import FusionInspect.CommandLine.Usage

/-!
# Running the command line

A run reads the configuration, carries the command out in a fresh session, and gives what the program
writes and how it exits. Everything it reads is on the disk that it is given.
-/

namespace FusionInspect.CommandLine

/-- What a program writes and how it exits. -/
structure Outcome where
  exit : Nat
  stdout : String
  stderr : String
  deriving Repr, DecidableEq

/-- The exit code for arguments that are not used rightly. -/
def usageExit : Nat := 2

/-- The configuration of a location: that of its file or the standard one, with what the location
says itself. -/
def Location.load (disk : Disk) (l : Location) : Except Error Config := do
  let config ← match l.config with
    | some path => Config.load disk path
    | none => pure Config.standard
  pure {
    config with
    packagesRoot := l.root.getD config.packagesRoot
    filePathPatterns := if l.patterns.isEmpty then config.filePathPatterns else l.patterns
    fileExtension := l.extension.getD config.fileExtension }

/-- Carries a command out. -/
def Command.run (config : Config) (disk : Disk) : Command → Answer
  | .lint package options =>
    let (report, events, _) := FusionInspect.lint package options disk (.ofConfig config)
    ⟨report.exitCode, events⟩
  | .showObjectTree path options => (Show.objectTree path options disk (.ofConfig config)).1
  | .debugPrototype name options => (Show.prototype name options disk (.ofConfig config)).1
  | .listPrototypes options => (Show.prototypes options disk (.ofConfig config)).1

/-- What the program writes after an invocation. -/
def Invocation.run (disk : Disk) (i : Invocation) : Outcome :=
  match i.location.load disk with
  | .error e => ⟨e.exitCode, "", "Error: " ++ e.message ++ "\n"⟩
  | .ok config =>
    let answer := i.command.run config disk
    ⟨answer.exit, Event.console answer.events, ""⟩

end FusionInspect.CommandLine
