import FusionInspect.Order.Stable
import FusionInspect.Workspace.Path

/-!
# Files and folders

The part of a file system that matters, as a value. A disk is a tree of folders together with the
folder that relative paths start from. Looking a path up walks its parts one by one: every part but the
last must be a folder, two dots lead back, and a slash at the end asks for a folder. A path that is too
long or holds a NUL is refused before anything is looked up, a name that is too long where it is
looked up.
-/

namespace FusionInspect

/-- A file with its bytes, or a folder with its entries. -/
inductive FileTree where
  | file (bytes : ByteArray)
  | folder (entries : List (String × FileTree))
  deriving Inhabited

/-- Why nothing is found at a path, or cannot be read. -/
inductive FileFault where
  | missing
  | notFolder
  | isFolder
  | notText
  | nameTooLong
  | nulInName
  deriving Repr, DecidableEq

/-- The wording of a fault. -/
def FileFault.message : FileFault → String
  | .missing => "No such file or directory (os error 2)"
  | .notFolder => "Not a directory (os error 20)"
  | .isFolder => "Is a directory (os error 21)"
  | .notText => "stream did not contain valid UTF-8"
  | .nameTooLong => "File name too long (os error 36)"
  | .nulInName => "file name contained an unexpected NUL byte"

namespace FileTree

/-- The empty folder. -/
def empty : FileTree := .folder []

/-- The entries of a folder; a file has none. -/
def entries : FileTree → List (String × FileTree)
  | .file _ => []
  | .folder es => es

/-- The entry of a name. -/
def child? (t : FileTree) (name : String) : Option FileTree :=
  (t.entries.find? fun e => e.1 == name).map Prod.snd

/-- Whether the tree is a folder. -/
def isFolder : FileTree → Bool
  | .file _ => false
  | .folder _ => true

/-- Walks parts of a path, with the folders that were passed at hand, nearest first. -/
def walk (passed : List FileTree) (t : FileTree) : List String → Except FileFault FileTree
  | [] => .ok t
  | segment :: rest =>
    match t with
    | .file _ => .error .notFolder
    | .folder _ =>
      if segment == "" || segment == "." then walk passed t rest
      else if segment == ".." then
        match passed with
        | [] => walk [] t rest
        | above :: others => walk others above rest
      else match t.child? segment with
        | none => .error (if Path.nameFits segment then .missing else .nameTooLong)
        | some below => walk (t :: passed) below rest

/-- Puts a tree at the end of a list of names; what is no folder on the way gives way to one. -/
def put (tree : FileTree) : List String → FileTree → FileTree
  | [], _ => tree
  | name :: rest, t =>
    let below := put tree rest ((t.child? name).getD empty)
    .folder ((name, below) :: t.entries.filter fun e => e.1 != name)

/-- Takes what stands at the end of a list of names away. -/
def remove : List String → FileTree → FileTree
  | _, .file bytes => .file bytes
  | [], t => t
  | [name], .folder es => .folder (es.filter fun e => e.1 != name)
  | name :: rest, .folder es =>
    .folder (es.map fun e => if e.1 == name then (e.1, remove rest e.2) else e)

/-- The entries of a folder by name. -/
def sortedEntries (t : FileTree) : List (String × FileTree) :=
  Order.sort (fun d e => decide (d.1 ≤ e.1)) t.entries

end FileTree

/-- A tree of folders and the names that lead to the working folder. -/
structure Disk where
  root : FileTree
  working : List String
  deriving Inhabited

namespace Disk

/-- A disk that holds a working folder and nothing else. -/
def ofWorkingFolder (name : String) : Disk :=
  ⟨.folder [(name, .empty)], [name]⟩

/-- What stands at a path. -/
def find (d : Disk) (path : String) : Except FileFault FileTree :=
  if Path.hasNul path then .error .nulInName
  else if path == "" then .error .missing
  else if !Path.fits path then .error .nameTooLong
  else if Path.isAbsolute path then FileTree.walk [] d.root (Path.segments path)
  else FileTree.walk [] d.root (d.working ++ Path.segments path)

/-- The names that lead from the root to a path, two dots taken back. -/
def namesFrom : List String → List Path.Component → List String
  | names, [] => names
  | names, .name n :: rest => namesFrom (names ++ [n]) rest
  | names, .parent :: rest => namesFrom names.dropLast rest
  | names, _ :: rest => namesFrom names rest

/-- The names that lead from the root to a path. -/
def names (d : Disk) (path : String) : List String :=
  namesFrom (if Path.isAbsolute path then [] else d.working) (Path.components path)

/-- Puts a tree at a path, with the folders that lead to it. -/
def put (d : Disk) (path : String) (tree : FileTree) : Disk :=
  { d with root := FileTree.put tree (d.names path) d.root }

/-- Makes a folder, unless one is there. -/
def putFolder (d : Disk) (path : String) : Disk :=
  match d.find path with
  | .ok (.folder _) => d
  | _ => d.put path .empty

/-- Takes a file or a folder away. -/
def remove (d : Disk) (path : String) : Disk :=
  { d with root := FileTree.remove (d.names path) d.root }

/-- Whether a folder stands at a path. -/
def isFolder (d : Disk) (path : String) : Bool :=
  match d.find path with
  | .ok t => t.isFolder
  | .error _ => false

/-- The text of a file. -/
def readText (d : Disk) (path : String) : Except FileFault String :=
  match d.find path with
  | .error f => .error f
  | .ok (.folder _) => .error .isFolder
  | .ok (.file bytes) =>
    match String.fromUTF8? bytes with
    | some text => .ok text
    | none => .error .notText

end Disk

end FusionInspect
