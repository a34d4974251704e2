/-!
# Output of commands

A command answers with a list of events: lines at some level, and the progress of a longer piece of
work. What becomes of them is for the receiver to decide. A buffer keeps everything, a plain receiver
keeps the lines only, and a console writes the lines with a sign in front of them.
-/

namespace FusionInspect

/-- The level of a line. -/
inductive Level where
  | plain
  | success
  | warning
  | error
  deriving Repr, DecidableEq

/-- Something that a command puts out. -/
inductive Event where
  | line (level : Level) (text : String)
  | progressStart (total : Nat)
  | progressAdvance
  | progressFinish
  deriving Repr, DecidableEq

namespace Event

/-- A plain line. -/
def plain (text : String) : Event := .line .plain text

/-- An empty line. -/
def blank : Event := plain ""

/-- The lines of an unordered list. -/
def bullets (names : List String) : List Event :=
  names.map fun n => plain (" - " ++ n)

/-- The line of an event, if it is one. -/
def line? : Event → Option (Level × String)
  | .line level text => some (level, text)
  | _ => none

end Event

/-- Everything that was put out, progress summed up. -/
structure Buffer where
  entries : List (Level × String)
  total : Option Nat
  steps : Nat
  finished : Bool
  deriving Repr, DecidableEq

namespace Buffer

/-- Nothing was put out. -/
def empty : Buffer := ⟨[], none, 0, false⟩

/-- Takes an event in. -/
def receive (b : Buffer) : Event → Buffer
  | .line level text => { b with entries := b.entries ++ [(level, text)] }
  | .progressStart total => { b with total := some total }
  | .progressAdvance => { b with steps := b.steps + 1 }
  | .progressFinish => { b with finished := true }

/-- The buffer of some events. -/
def ofEvents (events : List Event) : Buffer :=
  events.foldl receive empty

end Buffer

namespace Event

/-- The lines of some events, whatever their level. -/
def texts (events : List Event) : List String :=
  events.filterMap fun e => e.line?.map Prod.snd

/-- The sign in front of a line on the console. -/
def sign : Level → String
  | .plain => ""
  | .success => "✓ "
  | .warning => "! "
  | .error => "✗ "

/-- What the console shows of some events. -/
def console (events : List Event) : String :=
  String.join (events.filterMap fun e => e.line?.map fun (level, text) => sign level ++ text ++ "\n")

end Event

end FusionInspect
