import FusionInspect.Entries
import FusionInspect.Workspace.Config

/-!
# Catalogue of source files

The packages are the folders directly below the packages root, by name. The source files of a package
are the files with the right extension in the folders that its patterns name, at any depth; folders are
walked by name, each at its place among the files. A folder whose path is too long to be listed is
passed over. Frozen packages have no source files.

A catalogue remembers what it has found. A list of files is remembered for its scope, which is one
package or all of them, and with each file its text once that was read. A scope is a text, and the one
for all packages is a star; a package of that name shares it.
-/

namespace FusionInspect

/-- A source file of a package, with its text once it was read. -/
structure SourceFile where
  package : String
  path : String
  relative : String
  text? : Option String
  deriving Repr, DecidableEq

namespace SourceFile

/-- The text of a file, remembered if it can be read. -/
def read (disk : Disk) (f : SourceFile) : Except Error String × SourceFile :=
  match f.text? with
  | some text => (.ok text, f)
  | none =>
    match disk.readText f.path with
    | .ok text => (.ok text, { f with text? := some text })
    | .error _ => (.error (.unreadable f.path), f)

end SourceFile

namespace FileTree

mutual
/-- The paths of all files in a tree, names joined by slashes, folders walked by name. The names are
below the ones that lead to the tree. -/
def filesBelow (names : List String) : FileTree → List (List String)
  | .file _ => [names]
  | .folder es => (Order.sort (fun d e => decide (d.1 ≤ e.1)) (filesOf names es)).flatMap Prod.snd
/-- The files of each entry of a folder, with the name of the entry. -/
def filesOf (names : List String) :
    List (String × FileTree) → List (String × List (List String))
  | [] => []
  | (name, t) :: rest => (name, filesBelow (names ++ [name]) t) :: filesOf names rest
end

/-- The files in a tree by the names that lead to them, folders walked by name. -/
def files (t : FileTree) : List (List String) :=
  filesBelow [] t

end FileTree

/-- Packages and their source files, with what was found so far. -/
structure Catalogue where
  config : Config
  found : List (String × List SourceFile)
  deriving Repr

namespace Catalogue

/-- The scope of all packages. -/
def allPackages : String := "*"

/-- A catalogue that has found nothing yet. -/
def ofConfig (config : Config) : Catalogue :=
  ⟨config, []⟩

/-- Forgets what was found. -/
def clear (c : Catalogue) : Catalogue :=
  { c with found := [] }

/-- The names of the folders directly below the packages root. -/
def packages (disk : Disk) (config : Config) : List String :=
  match disk.find config.packagesRoot with
  | .ok t => (t.sortedEntries.filter fun e => e.2.isFolder).map Prod.fst
  | .error _ => []

/-- Whether a text ends with another. -/
def endsWith (text ending : String) : Bool :=
  ending.toList.isSuffixOf text.toList

/-- The source file at the end of some names below a folder. -/
def sourceFile (package base : String) (names : List String) : SourceFile where
  package
  path := names.foldl Path.join base
  relative := ("/".intercalate names).map fun c => if c == '\\' then '/' else c
  text? := none

/-- Whether a walk from a folder comes upon a file at the end of some names: the path of the folder
that holds the file must not be too long, or that folder cannot be listed. -/
def isReached (base : String) (names : List String) : Bool :=
  Path.fits (names.dropLast.foldl Path.join base)

/-- Whether the last of some names has the extension of source files. -/
def hasExtension (config : Config) (names : List String) : Bool :=
  endsWith (names.getLast?.getD "") config.fileExtension

/-- The source files of a package in one of its folders. -/
def inFolder (disk : Disk) (config : Config) (package base : String) : List SourceFile :=
  match disk.find base with
  | .ok (.folder es) =>
    ((FileTree.folder es).files.filter fun names =>
      isReached base names && hasExtension config names).map (sourceFile package base)
  | _ => []

/-- The source files of a package. -/
def ofPackage (disk : Disk) (config : Config) (package : String) : List SourceFile :=
  if config.isFrozen package then []
  else (config.basePaths package).flatMap (inFolder disk config package)

/-- The source files of some packages. -/
def discover (disk : Disk) (config : Config) (packages : List String) : List SourceFile :=
  packages.flatMap (ofPackage disk config)

/-- The package that a key stands for: one that is there and takes part. -/
def only? (disk : Disk) (config : Config) (key : Option String) : Option String :=
  key.filter fun k => (packages disk config).contains k && !config.isFrozen k

/-- The scope that a key stands for; a key without a package stands for all packages. -/
def scope (disk : Disk) (config : Config) (key : Option String) : String :=
  (only? disk config key).getD allPackages

/-- The packages that a key stands for. -/
def wanted (disk : Disk) (config : Config) (key : Option String) : List String :=
  match only? disk config key with
  | some k => [k]
  | none => packages disk config

/-- Remembers the files of a scope. -/
def remember (c : Catalogue) (scope : String) (files : List SourceFile) : Catalogue :=
  { c with found := Entries.put scope files c.found }

/-- The source files that a key stands for, found now or remembered. -/
def load (disk : Disk) (key : Option String) (c : Catalogue) : List SourceFile × Catalogue :=
  let scope := scope disk c.config key
  match Entries.find? scope c.found with
  | some files => (files, c)
  | none =>
    let files := discover disk c.config (wanted disk c.config key)
    (files, c.remember scope files)

/-- The texts of some files, each remembered if it can be read. -/
def readAll (disk : Disk) : List SourceFile → List (SourceFile × Except Error String)
  | [] => []
  | f :: rest =>
    let (text, f) := f.read disk
    (f, text) :: readAll disk rest

/-- The source files that a key stands for, with their texts. -/
def loadTexts (disk : Disk) (key : Option String) (c : Catalogue) :
    List (SourceFile × Except Error String) × Catalogue :=
  let (files, c) := c.load disk key
  let texts := readAll disk files
  (texts, c.remember (scope disk c.config key) (texts.map Prod.fst))

end Catalogue

end FusionInspect
