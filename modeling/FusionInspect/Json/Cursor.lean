/-!
# Reading a text from left to right

A cursor is what is left of a text together with the place reached in it. Places count lines from
one and columns in bytes of UTF-8 since the last line break, so a place can lie inside a character.

A fault names a cause and a place. Reading never goes back, so the first fault met is the answer.
-/

namespace FusionInspect.Json

/-- A place in a text: its line, and the bytes since the line began. -/
structure Place where
  line : Nat
  column : Nat
  deriving Repr, DecidableEq

/-- The place before the first character. -/
def Place.start : Place := ⟨1, 0⟩

/-- The place after `bytes` further bytes that belong to the character `c`. -/
def Place.advance (p : Place) (c : Char) (bytes : Nat) : Place :=
  if c == '\n' then ⟨p.line + 1, 0⟩ else ⟨p.line, p.column + bytes⟩

/-- The place after a character. -/
def Place.next (p : Place) (c : Char) : Place :=
  p.advance c c.utf8Size

/-- The place after a text. -/
def Place.after (p : Place) (text : List Char) : Place :=
  text.foldl Place.next p

/-- The place after so many bytes of a text, which may end inside a character. -/
def Place.afterBytes (p : Place) : Nat → List Char → Place
  | _, [] => p
  | bytes, c :: cs =>
    if bytes == 0 then p
    else if bytes < c.utf8Size then p.advance c bytes
    else (p.next c).afterBytes (bytes - c.utf8Size) cs

/-- Why a text is no document. -/
inductive Cause where
  | endInValue
  | endInObject
  | endInList
  | endInString
  | expectedValue
  | expectedIdent
  | expectedColon
  | expectedObjectComma
  | expectedListComma
  | keyNotString
  | trailingComma
  | trailingCharacters
  | nestedTooDeep
  | controlCharacter
  | invalidEscape
  | loneSurrogate
  | endOfHexEscape
  | invalidNumber
  | numberOutOfRange
  /-- A value of another type than the one expected, both described. -/
  | invalidType (found expected : String)
  /-- A field of a record given twice. -/
  | duplicateField (name : String)
  deriving Repr, DecidableEq

/-- The wording of a cause. -/
def Cause.message : Cause → String
  | .endInValue => "EOF while parsing a value"
  | .endInObject => "EOF while parsing an object"
  | .endInList => "EOF while parsing a list"
  | .endInString => "EOF while parsing a string"
  | .expectedValue => "expected value"
  | .expectedIdent => "expected ident"
  | .expectedColon => "expected `:`"
  | .expectedObjectComma => "expected `,` or `\x7d`"
  | .expectedListComma => "expected `,` or `]`"
  | .keyNotString => "key must be a string"
  | .trailingComma => "trailing comma"
  | .trailingCharacters => "trailing characters"
  | .nestedTooDeep => "recursion limit exceeded"
  | .controlCharacter => "control character (\\u0000-\\u001F) found while parsing a string"
  | .invalidEscape => "invalid escape"
  | .loneSurrogate => "lone leading surrogate in hex escape"
  | .endOfHexEscape => "unexpected end of hex escape"
  | .invalidNumber => "invalid number"
  | .numberOutOfRange => "number out of range"
  | .invalidType found expected => "invalid type: " ++ found ++ ", expected " ++ expected
  | .duplicateField name => "duplicate field `" ++ name ++ "`"

/-- A cause and the place where it was met. -/
structure Fault where
  cause : Cause
  place : Place
  deriving Repr, DecidableEq

/-- The wording of a fault, its place included. -/
def Fault.message (f : Fault) : String :=
  f.cause.message ++ " at line " ++ toString f.place.line ++ " column " ++ toString f.place.column

/-- What is left of a text, and the place reached. -/
structure Cursor where
  rest : List Char
  place : Place
  deriving Repr, DecidableEq

/-- A whole text, before its first character. -/
def Cursor.ofText (text : String) : Cursor :=
  ⟨text.toList, .start⟩

/-- The place just behind the first byte of the next character, or the end of the text. -/
def Cursor.here (c : Cursor) : Place :=
  match c.rest with
  | [] => c.place
  | ch :: _ => c.place.advance ch 1

/-- A step of reading: a result and what is left, or a fault. -/
abbrev Reader (α : Type) := StateT Cursor (Except Fault) α

namespace Reader

/-- Fails with a given place. -/
def failAt {α : Type} (cause : Cause) (place : Place) : Reader α := fun _ =>
  .error ⟨cause, place⟩

/-- Fails with the place reached. -/
def fail {α : Type} (cause : Cause) : Reader α := fun c =>
  .error ⟨cause, c.place⟩

/-- Fails with the place just behind the first byte of the next character. -/
def failHere {α : Type} (cause : Cause) : Reader α := fun c =>
  .error ⟨cause, c.here⟩

/-- The place reached. -/
def reached : Reader Place := fun c =>
  .ok (c.place, c)

/-- The next character, which stays. -/
def peek : Reader (Option Char) := fun c =>
  .ok (c.rest.head?, c)

/-- Takes the next character away. -/
def drop : Reader Unit := fun c =>
  match c.rest with
  | [] => .ok ((), c)
  | ch :: rest => .ok ((), ⟨rest, c.place.next ch⟩)

/-- How many characters are left. Every loop of the readers takes at least one character a round, so
this bounds the rounds. -/
def remaining : Reader Nat := fun c =>
  .ok (c.rest.length, c)

/-- Takes the longest run of characters that pass a test. -/
def takeRun (test : Char → Bool) : Reader (List Char) := fun c =>
  let run := c.rest.takeWhile test
  .ok (run, ⟨c.rest.dropWhile test, c.place.after run⟩)

/-- The blanks between tokens. -/
def isSpace (c : Char) : Bool :=
  c == ' ' || c == '\n' || c == '\t' || c == '\r'

/-- Takes the blanks in front away and looks at what follows. -/
def peekToken : Reader (Option Char) := do
  let _ ← takeRun isSpace
  peek

/-- Runs a reader on a whole text. -/
def run {α : Type} (r : Reader α) (text : String) : Except Fault α :=
  match r (Cursor.ofText text) with
  | .ok (a, _) => .ok a
  | .error f => .error f

end Reader

end FusionInspect.Json
