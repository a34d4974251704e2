import FusionInspect.Text.Ranges

/-!
# Blank characters, trimming and words

A character is blank when it has the Unicode property `White_Space`. Trimming drops the blanks at
both ends of a text, and the words of a text are its maximal runs of characters that are not blank.
-/

namespace FusionInspect.Text

/-- The code points with the property `White_Space`. -/
def blankRanges : Ranges := [
  (0x9, 0xD), (0x20, 0x20), (0x85, 0x85), (0xA0, 0xA0), (0x1680, 0x1680), (0x2000, 0x200A),
  (0x2028, 0x2029), (0x202F, 0x202F), (0x205F, 0x205F), (0x3000, 0x3000)
]

/-- Whether a character is white space. -/
def isBlank (c : Char) : Bool :=
  blankRanges.contains c.toNat

/-- The characters without the blanks at both ends. -/
def trim (cs : List Char) : List Char :=
  ((cs.dropWhile isBlank).reverse.dropWhile isBlank).reverse

/-- The words of a text with the word that is being read in front, its characters in order. -/
def wordsFrom : List Char → List Char × List (List Char)
  | [] => ([], [])
  | c :: cs =>
    let (word, later) := wordsFrom cs
    if isBlank c then ([], if word.isEmpty then later else word :: later) else (c :: word, later)

/-- The maximal runs of characters that are not blank, in order. -/
def words (text : String) : List String :=
  let (word, later) := wordsFrom text.toList
  (if word.isEmpty then later else word :: later).map String.ofList

end FusionInspect.Text
