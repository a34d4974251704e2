import FusionInspect.Error
import FusionInspect.Json.Document
import FusionInspect.Json.Skip
import FusionInspect.Json.Writer
import FusionInspect.Text.Quoted
import FusionInspect.Workspace.FileTree

/-!
# Configuration

Where packages live and how their files are found. A configuration is written as a JSON object, or as
a list of its fields in order; fields that are not given take their defaults, and fields that are not
known are skipped. It is read field by field, so a field of a wrong type is reported before what is
wrong further on.
-/

namespace FusionInspect

/-- Where packages live and how their files are found. -/
structure Config where
  packagesRoot : String
  filePathPatterns : List String
  fileExtension : String
  frozenPackages : List String
  deriving Repr, DecidableEq

namespace Config

/-- What the key of a package takes the place of in a pattern. -/
def placeholder : String := "@package"

/-- The configuration that nothing was said about. -/
def standard : Config where
  packagesRoot := "Packages"
  filePathPatterns := [placeholder ++ "/Resources/Private/Fusion"]
  fileExtension := ".fusion.json"
  frozenPackages := []

/-- Equality of configurations, the root compared as a path. -/
def equal (a b : Config) : Bool :=
  Path.same a.packagesRoot b.packagesRoot && a.filePathPatterns == b.filePathPatterns
    && a.fileExtension == b.fileExtension && a.frozenPackages == b.frozenPackages

/-- Whether a package takes no part. -/
def isFrozen (c : Config) (package : String) : Bool :=
  c.frozenPackages.contains package

/-- A pattern with the key of a package in it. -/
def expand (pattern package : String) : String :=
  Text.replace placeholder package pattern

/-- The folders of a package, one for each pattern. -/
def basePaths (c : Config) (package : String) : List String :=
  c.filePathPatterns.map fun pattern => Path.join c.packagesRoot (expand pattern package)

/-! ## Written form -/

/-- Name of the field for the root of the packages. -/
def rootField : String := "packages_root"

/-- Name of the field for the patterns of folders. -/
def patternsField : String := "file_path_patterns"

/-- Name of the field for the extension of files. -/
def extensionField : String := "file_extension"

/-- Name of the field for the packages that take no part. -/
def frozenField : String := "frozen_packages"

/-- A list of texts as a JSON value. -/
def textsJson (texts : List String) : Json :=
  .array (texts.map .string)

/-- The configuration as a JSON value, all fields given. -/
def toJson (c : Config) : Json :=
  .object [(rootField, .string c.packagesRoot), (patternsField, textsJson c.filePathPatterns),
    (extensionField, .string c.fileExtension), (frozenField, textsJson c.frozenPackages)]

/-! ## Reading -/

/-- The fields that were given. -/
structure Fields where
  root : Option String
  patterns : Option (List String)
  extension : Option String
  frozen : Option (List String)
  deriving Repr

/-- No field was given. -/
def Fields.unset : Fields := ⟨none, none, none, none⟩

/-- The given fields, with defaults for the others. -/
def Fields.config (f : Fields) : Config where
  packagesRoot := f.root.getD standard.packagesRoot
  filePathPatterns := f.patterns.getD standard.filePathPatterns
  fileExtension := f.extension.getD standard.fileExtension
  frozenPackages := f.frozen.getD standard.frozenPackages

open Json Json.Reader

/-- How a number is described in a fault. -/
def describeNumber : Number → String
  | .integer n => "integer `" ++ integerText n ++ "`"
  | .float x => "floating point `" ++ (Number.float x).text ++ "`"

/-- How a scalar is described in a fault. -/
def describe : Json → String
  | .null => "null"
  | .bool true => "boolean `true`"
  | .bool false => "boolean `false`"
  | .number n => describeNumber n
  | .string s => "string " ++ Text.quoted s
  | .array _ => "sequence"
  | .object _ => "map"

/-- Fails for a value of a wrong type. A scalar is read for its description and the fault is placed
behind it; for a list or an object it is placed before the bracket. -/
def wrongType {α : Type} (expected : String) (c : Char) : Reader α := do
  if c == '[' then fail (.invalidType (describe (.array [])) expected)
  else if c == '\x7b' then fail (.invalidType (describe (.object [])) expected)
  else do
    let v ← plainValue c
    fail (.invalidType (describe v) expected)

/-- A text. -/
def textField (expected : String) : Reader String := do
  match ← peekToken with
  | none => failHere .endInValue
  | some c => if c == '"' then drop *> stringBody else wrongType expected c

/-- A list of texts. -/
def textsField : Reader (List String) := do
  match ← peekToken with
  | none => failHere .endInValue
  | some c => if c == '[' then drop *> items (textField "a string") else wrongType "a sequence" c

/-- The root of the packages. -/
def readRoot (f : Fields) : Reader Fields := do
  return { f with root := some (← textField "path string") }

/-- The patterns of folders. -/
def readPatterns (f : Fields) : Reader Fields := do
  return { f with patterns := some (← textsField) }

/-- The extension of files. -/
def readExtension (f : Fields) : Reader Fields := do
  return { f with extension := some (← textField "a string") }

/-- The packages that take no part. -/
def readFrozen (f : Fields) : Reader Fields := do
  return { f with frozen := some (← textsField) }

/-- Fails for a field given twice. The fault is placed where reading the object ends: behind the
blanks that follow the key, and behind a brace that closes it there. -/
def repeated {α : Type} (name : String) : Reader α := do
  if (← peekToken) == some '\x7d' then drop
  fail (.duplicateField name)

/-- The value of a field. The field must be new; a field that is not known is skipped. -/
def readField (f : Fields) (name : String) : Reader Fields := do
  if name == rootField then
    if f.root.isSome then repeated name else colon *> readRoot f
  else if name == patternsField then
    if f.patterns.isSome then repeated name else colon *> readPatterns f
  else if name == extensionField then
    if f.extension.isSome then repeated name else colon *> readExtension f
  else if name == frozenField then
    if f.frozen.isSome then repeated name else colon *> readFrozen f
  else do
    colon
    skipValue
    pure f

/-- The fields of an object up to its closing brace, which is taken. -/
def readFields : Nat → Bool → Fields → Reader Fields
  | 0, _, _ => failHere .endInObject
  | fuel + 1, first, f => do
    if ← moreKeys first then
      drop
      let name ← stringBody
      readFields fuel false (← readField f name)
    else
      drop
      pure f

/-- The fields of a list, as many as are given. -/
def readItems (first : Bool) (f : Fields) : List (Fields → Reader Fields) → Reader Fields
  | [] => pure f
  | read :: rest => do
    if ← moreItems first then readItems false (← read f) rest else pure f

/-- Takes the closing bracket of a list that may go on no further. -/
def closeList : Reader Unit := do
  match ← peekToken with
  | none => failHere .endInList
  | some c =>
    if c == ']' then drop
    else if c == ',' then do
      drop
      if (← peekToken) == some ']' then failHere .trailingComma else failHere .trailingCharacters
    else failHere .trailingCharacters

/-- A configuration and nothing else. -/
def read : Reader Config := do
  match ← peekToken with
  | none => failHere .endInValue
  | some c =>
    let f ← if c == '[' then do
        drop
        let f ← readItems true Fields.unset [readRoot, readPatterns, readExtension, readFrozen]
        closeList
        pure f
      else if c == '\x7b' then do
        drop
        readFields ((← remaining) + 1) true Fields.unset
      else wrongType "struct DebuggerConfig" c
    finish
    pure f.config

/-- The configuration that a text writes; the path names it in an error. -/
def parse (path text : String) : Except Error Config :=
  match read.run text with
  | .ok c => .ok c
  | .error f => .error (.badConfig path f.message)

/-- The configuration of a file. -/
def load (disk : Disk) (path : String) : Except Error Config :=
  match disk.readText path with
  | .ok text => parse path text
  | .error f => .error (.badConfig path f.message)

end Config

end FusionInspect
