import FusionInspect.Text.Split

/-!
# Paths

A path is a text of names with slashes between them. Paths are joined and shown as they are written;
they are compared by their components, which leave out repeated slashes and single dots inside.

The file system bounds what a path may be: it holds no NUL, and its names and the whole of it have a
greatest size in bytes.
-/

namespace FusionInspect.Path

/-- A component of a path. -/
inductive Component where
  | root
  | current
  | parent
  | name (text : String)
  deriving Repr, DecidableEq

/-- The parts of a path between its slashes, empty ones included. -/
def segments (path : String) : List String :=
  Text.splitAt '/' path

/-- Whether a path starts at the root. -/
def isAbsolute (path : String) : Bool :=
  path.toList.head? == some '/'

/-- The component of a part that is not the first of a relative path. -/
def component? (segment : String) : Option Component :=
  if segment == "" || segment == "." then none
  else if segment == ".." then some .parent
  else some (.name segment)

/-- The components of a path. A dot counts only where a relative path starts with it. -/
def components (path : String) : List Component :=
  if isAbsolute path then .root :: (segments path).filterMap component?
  else match segments path with
    | "." :: rest => .current :: rest.filterMap component?
    | parts => parts.filterMap component?

/-- Whether two paths have the same components. -/
def same (a b : String) : Bool :=
  components a == components b

/-- A path below another. An absolute path replaces the one it is joined to; otherwise one slash
stands between the two, unless the left one is empty or ends in a slash. -/
def join (base path : String) : String :=
  if isAbsolute path || base == "" then path
  else if base.toList.getLast? == some '/' then base ++ path
  else base ++ "/" ++ path

/-! ## Bounds -/

/-- The greatest size of a name, in bytes. -/
def longestName : Nat := 255

/-- The greatest size of a path, in bytes. -/
def longestPath : Nat := 4095

/-- Whether a name is short enough. -/
def nameFits (name : String) : Bool :=
  decide (name.utf8ByteSize ≤ longestName)

/-- Whether a path is short enough. -/
def fits (path : String) : Bool :=
  decide (path.utf8ByteSize ≤ longestPath)

/-- Whether a path holds a NUL, which ends every text that the file system is given. -/
def hasNul (path : String) : Bool :=
  path.toList.contains '\x00'

end FusionInspect.Path
