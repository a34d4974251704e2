import FusionInspect.Display.Flatten
import FusionInspect.Prototype.Resolve
import FusionInspect.Session.TreeCache
import FusionInspect.Source.Declaration
import FusionInspect.Tree.FusionPath
import FusionInspect.Workspace.Catalogue

/-!
# Inspection sessions

A session answers questions about the object tree of all source files. The tree is loaded by the first
question and kept until the session is reset, whatever happens to the files in between. A load that
fails keeps no tree, but the texts that were read by then stay remembered.
-/

namespace FusionInspect

/-- A catalogue of source files, and the object tree once it was loaded. -/
structure Session where
  catalogue : Catalogue
  cache : TreeCache
  deriving Repr

namespace Session

/-- A session that has loaded nothing. -/
def ofConfig (config : Config) : Session :=
  ⟨.ofConfig config, .empty⟩

/-- Forgets the files that were found, but not the tree. -/
def clear (s : Session) : Session :=
  { s with catalogue := s.catalogue.clear }

/-- Forgets everything that was found or loaded. -/
def reset (s : Session) : Session :=
  ⟨s.catalogue.clear, .empty⟩

/-- Adds the declarations of files to a tree, in order, up to the first that fails. The files come
back with the texts that were read. -/
def accumulate (disk : Disk) (t : ObjectTree) :
    List SourceFile → Except Error ObjectTree × List SourceFile
  | [] => (.ok t, [])
  | f :: rest =>
    let (text, f) := f.read disk
    match text with
    | .error e => (.error e, f :: rest)
    | .ok text =>
      match Source.parse f.path text t with
      | .error cause => (.error (.unparsable f.path cause), f :: rest)
      | .ok t =>
        let (outcome, rest) := accumulate disk t rest
        (outcome, f :: rest)

/-- Loads the object tree of all source files. -/
def loadTree (disk : Disk) (c : Catalogue) : Except Error ObjectTree × Catalogue :=
  let (files, c) := c.load disk none
  let (outcome, files) := accumulate disk .empty files
  (outcome, c.remember (Catalogue.scope disk c.config none) files)

/-- The object tree of all source files, loaded unless it is there. -/
def tree (disk : Disk) (s : Session) : Except Error ObjectTree × Session :=
  let (outcome, cache, catalogue) := s.cache.getOrLoad (loadTree disk) s.catalogue
  (outcome, ⟨catalogue, cache⟩)

/-- Answers a question about the tree. -/
def ask {α : Type} (question : ObjectTree → Except Error α) (disk : Disk) (s : Session) :
    Except Error α × Session :=
  let (t, s) := s.tree disk
  (t >>= question, s)

/-- Whether a prototype is in the table. -/
def isKnown (name : String) : ObjectTree → Except Error Bool := fun t =>
  .ok (t.prototypes.has name)

/-- The names of all prototypes, in table order or in natural order. -/
def names (sorted : Bool) : ObjectTree → Except Error (List String) := fun t =>
  .ok (if sorted then Text.naturalSort t.prototypes.keys else t.prototypes.keys)

/-- The completed definition of a prototype. -/
def prototype (name : String) : ObjectTree → Except Error Branch := fun t =>
  Prototype.resolve t.prototypes name

/-- The part of the tree at a path. -/
def part (path : Option String) : ObjectTree → Except Error Branch := fun t =>
  t.at? path

/-- A definition flattened for display. -/
def flattened (definition : Branch) : ObjectTree → Except Error Branch := fun t =>
  .ok (Display.flatten t.prototypes definition)

end Session

end FusionInspect
