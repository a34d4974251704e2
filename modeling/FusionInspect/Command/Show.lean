import FusionInspect.Display.Colour
import FusionInspect.Display.Drawing
import FusionInspect.Json.Writer
import FusionInspect.Report.Output
import FusionInspect.Session.Basic

/-!
# Showing trees and names

Commands that show something of a session. Each ends with an exit code: zero after showing what was
asked for, or that of the error that is reported instead. Nothing is put out before everything that can
fail has succeeded.
-/

namespace FusionInspect

/-- How trees are shown. -/
structure DisplayOptions where
  colour : Bool
  flatten : Bool
  /-- As JSON instead of a drawing. -/
  json : Bool
  deriving Repr, DecidableEq

/-- How names are listed. -/
structure ListOptions where
  format : Bool
  sort : Bool
  deriving Repr, DecidableEq

/-- How a command ends: its exit code and what it puts out. -/
structure Answer where
  exit : Nat
  events : List Event
  deriving Repr, DecidableEq

namespace Show

/-- The answer of a command that succeeds with some events, or fails. -/
def answer : Except Error (List Event) → Answer
  | .ok events => ⟨0, events⟩
  | .error e => ⟨e.exitCode, [.line .error e.message]⟩

/-- A tree as it is put out. -/
def treeEvents (options : DisplayOptions) (label : String) (b : Branch) : List Event :=
  if options.json then [.plain b.toJson.pretty]
  else
    let lines := Drawing.lines label b
    (if options.colour then Colour.tree lines else lines).map .plain ++ [.blank]

/-- Puts out a tree that a question gives, flattened if that is wanted. -/
def display (question : ObjectTree → Except Error Branch) (label : String)
    (options : DisplayOptions) (disk : Disk) (s : Session) : Answer × Session :=
  let (found, s) := s.ask question disk
  match found with
  | .error e => (answer (.error e), s)
  | .ok b =>
    let (b, s) := if options.flatten then s.ask (Session.flattened b) disk else (.ok b, s)
    (answer (b.map (treeEvents options label)), s)

/-- What is put out instead of the table of prototypes. -/
def tableWarning : String :=
  "Please use the debug-prototype command to debug Fusion prototypes!"

/-- Shows the object tree, or its part at a path. -/
def objectTree (path : Option String) (options : DisplayOptions) (disk : Disk) (s : Session) :
    Answer × Session :=
  if path == some Key.prototypes then (⟨1, [.line .warning tableWarning]⟩, s)
  else display (Session.part path) ((path.filter (· != "")).getD ".") options disk s

/-- Shows the completed definition of a prototype. -/
def prototype (name : String) (options : DisplayOptions) (disk : Disk) (s : Session) :
    Answer × Session :=
  display (Session.prototype name) name options disk s

/-- Lists the names of all prototypes. -/
def prototypes (options : ListOptions) (disk : Disk) (s : Session) : Answer × Session :=
  let (names, s) := s.ask (Session.names options.sort) disk
  (answer (names.map fun ns => if options.format then Event.bullets ns else ns.map .plain), s)

end Show

end FusionInspect
