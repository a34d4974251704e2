import FusionInspect.Error
import FusionInspect.Json.Document
import FusionInspect.Tree.Object

/-!
# Declarations of a source

A source is a JSON object of declarations. It is checked before it becomes part of an object tree:
a reserved key must have a meaning, a table of prototypes must hold definitions, and the chain of a
prototype must be a list of names. Lists are not looked into.

The first offence in document order is the one reported, by the path that leads to it.
-/

namespace FusionInspect.Source

/-- The path of a key below a path. -/
def childPath (path key : String) : String :=
  if path == "" then key else path ++ "." ++ key

/-- How a prototype is named in paths. -/
def prototypePath (name : String) : String :=
  "prototype(" ++ name ++ ")"

/-- Whether a value is a list of texts. -/
def isNameList : Json → Bool
  | .array items => items.all fun v => match v with
    | .string _ => true
    | _ => false
  | _ => false

/-- Checks the chain of a prototype, if it has one. -/
def checkChain (name : String) (definition : List (String × Json)) : Except ParseError Unit :=
  match Entries.find? Key.prototypeChain definition with
  | some chain => if isNameList chain then pure () else throw (.invalidChain name)
  | none => pure ()

mutual
/-- Checks declarations below a path. -/
def checkEntries (path : String) : List (String × Json) → Except ParseError Unit
  | [] => pure ()
  | (key, v) :: rest => do
    if Key.isUnknown key then throw (.unknownDeclaration (childPath path key))
    if key == Key.prototypes then checkTable (childPath path key) v
    else checkValue (childPath path key) v
    checkEntries path rest
/-- Checks what is declared at a path. -/
def checkValue (path : String) : Json → Except ParseError Unit
  | .object entries => checkEntries path entries
  | _ => pure ()
/-- Checks a table of prototypes at a path. -/
def checkTable (path : String) : Json → Except ParseError Unit
  | .object definitions => checkDefinitions definitions
  | _ => throw (.unknownDeclaration path)
/-- Checks the definitions of a table. -/
def checkDefinitions : List (String × Json) → Except ParseError Unit
  | [] => pure ()
  | (name, d) :: rest => do
    checkDefinition name d
    checkDefinitions rest
/-- Checks the definition of a prototype. -/
def checkDefinition (name : String) : Json → Except ParseError Unit
  | .object entries => do
    checkChain name entries
    checkEntries (prototypePath name) entries
  | _ => throw (.unknownDeclaration (prototypePath name))
end

/-- The parse error of a fault in a document. -/
def ofFault (f : Json.Fault) : ParseError :=
  .malformed f.place.line f.place.column f.cause.message

/-- The checked declarations of a source. The label names the source in an error. -/
def declarations (label source : String) : Except ParseError (List (String × Json)) := do
  match Json.parse source with
  | .error f => throw (ofFault f)
  | .ok (.object entries) => do
    checkEntries "" entries
    pure entries
  | .ok _ => throw (.unknownDeclaration (label ++ " is not an object tree"))

/-- Adds the declarations of a source to an object tree. -/
def parse (label source : String) (t : ObjectTree) : Except ParseError ObjectTree := do
  let entries ← declarations label source
  pure (t.absorb (Node.ofJson (.object entries)).toBranch)

end FusionInspect.Source
