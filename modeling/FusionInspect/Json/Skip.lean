import FusionInspect.Json.Token

/-!
# Skipping values

A value that nobody asks for is skipped with a check of its syntax only: numbers are not given a value,
halves of surrogate pairs may stand alone, and nesting has no bound. The open lists and objects are
kept on a stack instead.
-/

namespace FusionInspect.Json.Reader

/-- An open list or object. -/
inductive Frame where
  | list
  | object
  deriving Repr, DecidableEq

/-- The character that closes a frame. -/
def Frame.closing : Frame → Char
  | .list => ']'
  | .object => '\x7d'

/-- The fault of a text that ends inside a frame. -/
def Frame.endCause : Frame → Cause
  | .list => .endInList
  | .object => .endInObject

/-- The fault of a missing comma in a frame. -/
def Frame.commaCause : Frame → Cause
  | .list => .expectedListComma
  | .object => .expectedObjectComma

/-- Takes an escape, its backslash taken. -/
def skipEscape : Reader Unit := do
  match ← peek with
  | none => fail .endInString
  | some c =>
    if (shortEscape? c).isSome then drop
    else if c == 'u' then do
      drop
      let _ ← hexQuad
    else failHere .invalidEscape

/-- Takes the rest of a string. -/
def skipStringRest : Nat → Reader Unit
  | 0 => fail .endInString
  | fuel + 1 => do
    match ← peek with
    | none => fail .endInString
    | some c =>
      if c == '"' then drop
      else if c == '\\' then do
        drop
        skipEscape
        skipStringRest fuel
      else if c < ' ' then fail .controlCharacter
      else do
        drop
        skipStringRest fuel

/-- Takes a string, its opening quote taken. -/
def skipString : Reader Unit := do
  skipStringRest ((← remaining) + 1)

/-- Takes at least one digit; a fault is placed behind what stands there instead. -/
def skipDigits : Reader Unit := do
  if (← takeRun Char.isDigit).isEmpty then failHere .invalidNumber

/-- Takes an exponent, if one follows. -/
def skipExponent : Reader Unit := do
  if isExponentMark (← peek) then
    drop
    let next ← peek
    if next == some '+' || next == some '-' then drop
    skipDigits

/-- Takes the digits behind a point, if one follows. -/
def skipFraction : Reader Unit := do
  if (← peek) == some '.' then
    drop
    skipDigits

/-- Takes a number, its minus sign taken if it has one. -/
def skipNumber : Reader Unit := do
  if (← peek) == some '0' then
    drop
    match ← peek with
    | some c => if c.isDigit then failHere .invalidNumber
    | none => pure ()
  else skipDigits
  skipFraction
  skipExponent

/-- Takes a value that is neither list nor object, by its first character. -/
def skipPlain (c : Char) : Reader Unit :=
  if c == 'n' then do drop; literal ['u', 'l', 'l']
  else if c == 't' then do drop; literal ['r', 'u', 'e']
  else if c == 'f' then do drop; literal ['a', 'l', 's', 'e']
  else if c == '-' then do drop; skipNumber
  else if c.isDigit then skipNumber
  else if c == '"' then do drop; skipString
  else failHere .expectedValue

/-- Takes the key and the colon in front of a value in an object; a list has none. -/
def skipKey : Frame → Reader Unit
  | .list => pure ()
  | .object => do
    match ← peekToken with
    | none => failHere .endInObject
    | some c =>
      if c == '"' then do
        drop
        skipString
        match ← peekToken with
        | none => failHere .endInObject
        | some d => if d == ':' then drop else failHere .expectedColon
      else failHere .keyNotString

mutual
/-- Takes a value inside open frames, and then what closes them. -/
def skipIn : Nat → List Frame → Reader Unit
  | 0, _ => failHere .endInValue
  | fuel + 1, frames => do
    match ← peekToken with
    | none => failHere .endInValue
    | some c =>
      if c == '[' then do
        drop
        skipOn fuel (.list :: frames) false
      else if c == '\x7b' then do
        drop
        skipOn fuel (.object :: frames) false
      else do
        skipPlain c
        skipOn fuel frames true
/-- Goes on inside open frames, where the flag says whether a value was taken in the innermost. -/
def skipOn : Nat → List Frame → Bool → Reader Unit
  | _, [], _ => pure ()
  | 0, frame :: _, _ => failHere frame.endCause
  | fuel + 1, frame :: outer, filled => do
    match ← peekToken with
    | none => failHere frame.endCause
    | some c =>
      if c == ',' && filled then do
        drop
        skipKey frame
        skipIn fuel (frame :: outer)
      else if c == frame.closing then do
        drop
        skipOn fuel outer true
      else if filled then failHere frame.commaCause
      else do
        skipKey frame
        skipIn fuel (frame :: outer)
end

/-- Takes one value. -/
def skipValue : Reader Unit := do
  skipIn (2 * (← remaining) + 2) []

end FusionInspect.Json.Reader
