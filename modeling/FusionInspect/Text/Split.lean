/-!
# Cutting texts

A text is cut at every occurrence of a character, and a part of a text is replaced wherever it occurs,
from left to right and never inside a place that was replaced.
-/

namespace FusionInspect.Text

/-- The parts between the occurrences of a mark, the first one on its own. -/
def splitFirst (mark : Char) : List Char → List Char × List (List Char)
  | [] => ([], [])
  | c :: cs =>
    let (part, later) := splitFirst mark cs
    if c == mark then ([], part :: later) else (c :: part, later)

/-- The parts of a text between the occurrences of a mark, empty parts included. -/
def splitAt (mark : Char) (text : String) : List String :=
  let (part, later) := splitFirst mark text.toList
  (part :: later).map String.ofList

/-- The characters with a part replaced wherever it occurs. The number says how many characters of an
occurrence are still to be left out. -/
def replaceFrom (part replacement : List Char) : Nat → List Char → List Char
  | _, [] => []
  | skip + 1, _ :: cs => replaceFrom part replacement skip cs
  | 0, c :: cs =>
    if part.isPrefixOf (c :: cs) then
      replacement ++ replaceFrom part replacement (part.length - 1) cs
    else c :: replaceFrom part replacement 0 cs

/-- The text with a part, which must not be empty, replaced wherever it occurs. -/
def replace (part replacement text : String) : String :=
  String.ofList (replaceFrom part.toList replacement.toList 0 text.toList)

end FusionInspect.Text
