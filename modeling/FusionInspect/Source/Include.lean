/-!
# Include statements

A line that starts with `include:`, in whatever case, includes another file. Such a line is turned
into a comment before a source is checked, so that what it includes is not checked twice.
-/

namespace FusionInspect.Source

/-- The start of an include statement, in lower case. -/
def includeMark : List Char := "include:".toList

/-- The start of a line that was turned into a comment. -/
def commentedInclude : List Char := "#include:".toList

/-- Whether a text starts with a mark, in whatever ASCII case. -/
def startsWithMark : List Char → List Char → Bool
  | [], _ => true
  | _ :: _, [] => false
  | m :: ms, c :: cs => c.toLower == m && startsWithMark ms cs

/-- The text with include statements commented out. The flag says whether a line starts, and the
number how many characters of a mark are still to be left out. -/
def commentIncludes : Nat → Bool → List Char → List Char
  | _, _, [] => []
  | skip + 1, _, _ :: cs => commentIncludes skip false cs
  | 0, lineStart, c :: cs =>
    if lineStart && startsWithMark includeMark (c :: cs) then
      commentedInclude ++ commentIncludes (includeMark.length - 1) false cs
    else c :: commentIncludes 0 (c == '\n') cs

/-- The source with its include statements commented out. -/
def normalizeIncludes (source : String) : String :=
  String.ofList (commentIncludes 0 true source.toList)

end FusionInspect.Source
