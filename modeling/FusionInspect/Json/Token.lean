import FusionInspect.Json.Basic
import FusionInspect.Json.Cursor

/-!
# Strings, numbers and literals

The tokens of the format. A string is decoded while it is read. A number is first read as digits, by
the grammar, and then given its value: integers stay exact where they fit 64 bits, and every other
number is its digits, kept in 64 bits, scaled once by a power of ten. The scaling rounds, so the
result is near the written number and not always nearest.
-/

namespace FusionInspect.Json.Reader

/-! ## Literals -/

/-- Takes the given characters; anything else is a fault. -/
def literal : List Char → Reader Unit
  | [] => pure ()
  | expected :: more => do
    match ← peek with
    | none => fail .endInValue
    | some c => if c == expected then drop *> literal more else failHere .expectedIdent

/-! ## Strings -/

/-- The value of a hexadecimal digit. -/
def hexDigit? (c : Char) : Option Nat :=
  if c.isDigit then some (c.toNat - '0'.toNat)
  else if 'a' ≤ c && c ≤ 'f' then some (c.toNat - 'a'.toNat + 10)
  else if 'A' ≤ c && c ≤ 'F' then some (c.toNat - 'A'.toNat + 10)
  else none

/-- The number that four hexadecimal digits write. -/
def hexValue? : List Char → Option Nat
  | [a, b, c, d] => do
    let w ← hexDigit? a
    let x ← hexDigit? b
    let y ← hexDigit? c
    let z ← hexDigit? d
    pure (((w * 16 + x) * 16 + y) * 16 + z)
  | _ => none

/-- Takes four hexadecimal digits. They are measured in bytes: with fewer than four bytes left the
string is unfinished, and a fault among the four is placed behind them. -/
def hexQuad : Reader Nat := fun c =>
  let quad := c.rest.take 4
  if (String.ofList quad).utf8ByteSize < 4 then .error ⟨.endInString, c.place.after c.rest⟩
  else match hexValue? quad with
    | some n => .ok (n, ⟨c.rest.drop 4, c.place.after quad⟩)
    | none => .error ⟨.invalidEscape, c.place.afterBytes 4 c.rest⟩

/-- Takes one character that a pair of hexadecimal escapes needs. -/
def pairMark (mark : Char) : Reader Unit := do
  match ← peek with
  | none => fail .endInString
  | some c => if c == mark then drop else failHere .endOfHexEscape

/-- The character of a hexadecimal escape, its mark taken. The first half of a pair needs the second
half in a further escape. -/
def unicodeEscape : Reader Char := do
  let n ← hexQuad
  if 0xDC00 ≤ n && n ≤ 0xDFFF then fail .loneSurrogate
  else if 0xD800 ≤ n && n ≤ 0xDBFF then do
    pairMark '\\'
    pairMark 'u'
    let low ← hexQuad
    if 0xDC00 ≤ low && low ≤ 0xDFFF then
      pure (Char.ofNat ((n - 0xD800) * 0x400 + (low - 0xDC00) + 0x10000))
    else fail .loneSurrogate
  else pure (Char.ofNat n)

/-- The characters that a backslash and one letter stand for. -/
def shortEscape? (c : Char) : Option Char :=
  if c == '"' || c == '\\' || c == '/' then some c
  else if c == 'b' then some '\x08'
  else if c == 'f' then some '\x0c'
  else if c == 'n' then some '\n'
  else if c == 'r' then some '\r'
  else if c == 't' then some '\t'
  else none

/-- The character of an escape, its backslash taken. -/
def escape : Reader Char := do
  match ← peek with
  | none => fail .endInString
  | some c =>
    match shortEscape? c with
    | some d => drop *> pure d
    | none => if c == 'u' then drop *> unicodeEscape else failHere .invalidEscape

/-- The rest of a string behind the characters read so far, which stand in reverse. -/
def stringRest : Nat → List Char → Reader String
  | 0, _ => fail .endInString
  | fuel + 1, read => do
    match ← peek with
    | none => fail .endInString
    | some c =>
      if c == '"' then drop *> pure (String.ofList read.reverse)
      else if c == '\\' then do
        drop
        let d ← escape
        stringRest fuel (d :: read)
      else if c < ' ' then failHere .controlCharacter
      else do
        drop
        stringRest fuel (c :: read)

/-- A string, its opening quote taken. -/
def stringBody : Reader String := do
  stringRest ((← remaining) + 1) []

/-! ## Numbers -/

/-- The greatest significand. -/
def maxSignificand : Nat := (1 <<< 64) - 1

/-- Takes digits into a significand until the next one would exceed its bound; gives back the digits
that are left. -/
def collectDigits : Nat → List Char → Nat × List Char
  | n, [] => (n, [])
  | n, c :: cs =>
    let next := 10 * n + (c.toNat - '0'.toNat)
    if next ≤ maxSignificand then collectDigits next cs else (n, c :: cs)

/-- Scales a number by a power of ten. Nothing is given for a result that is not finite. -/
def scaleDecimal : Nat → Float → Int → Option Float
  | 0, x, _ => some x
  | fuel + 1, x, exponent =>
    if exponent.natAbs ≤ 308 then
      let power := Float.ofScientific 1 false exponent.natAbs
      if exponent < 0 then some (x / power)
      else if (x * power).isInf then none
      else some (x * power)
    else if x == 0 then some x
    else if 0 ≤ exponent then none
    else scaleDecimal fuel (x / Float.ofScientific 1 false 308) (exponent + 308)

/-- The floating-point number of a significand and an exponent. -/
def floatOfParts? (negative : Bool) (significand : Nat) (exponent : Int) : Option Float :=
  (scaleDecimal (exponent.natAbs / 308 + 1) (Float.ofNat significand) exponent).map fun x =>
    if negative then -x else x

/-- The integer or float of a number written without point and exponent. -/
def wholeNumber? (negative : Bool) (whole : List Char) : Option Number :=
  let (significand, extra) := collectDigits 0 whole
  if !extra.isEmpty then
    (floatOfParts? negative significand extra.length).map .float
  else if !negative then some (.integer significand)
  else if significand == 0 || significand > 1 <<< 63 then
    some (.float (-(Float.ofNat significand)))
  else some (.integer (-(significand : Int)))

/-- The digits of an exponent as a number, or how many of them it took to exceed 32 bits. -/
def exponentValue : Nat → Nat → List Char → Except Nat Nat
  | _, n, [] => .ok n
  | taken, n, c :: cs =>
    let next := 10 * n + (c.toNat - '0'.toNat)
    if next > 2147483647 then .error (taken + 1) else exponentValue (taken + 1) next cs

/-- Takes at least one digit. The first is looked at on its own: a fault there is placed behind it. -/
def someDigits : Reader (List Char) := do
  match ← peek with
  | none => fail .endInValue
  | some c => if c.isDigit then takeRun Char.isDigit else failHere .invalidNumber

/-- The digits before a point or an exponent. A leading zero stands alone. -/
def wholeDigits : Reader (List Char) := do
  match ← peek with
  | some '0' => do
    drop
    match ← peek with
    | some c => if c.isDigit then failHere .invalidNumber else pure ['0']
    | none => pure ['0']
  | _ => someDigits

/-- Gives the value of a number, or a fault at the place reached. -/
def inRange {α : Type} : Option α → Reader α
  | some a => pure a
  | none => fail .numberOutOfRange

/-- An exponent behind its mark, and the number that it completes. An exponent beyond 32 bits makes
zero or a fault, the fault placed behind the digit that was one too many. -/
def exponentPart (negative : Bool) (significand : Nat) (exponent : Int) : Reader Float := do
  let down ← match ← peek with
    | some '-' => drop *> pure true
    | some '+' => drop *> pure false
    | _ => pure false
  let start ← reached
  let run ← someDigits
  match exponentValue 0 0 run with
  | .ok n => inRange (floatOfParts? negative significand (if down then exponent - n else exponent + n))
  | .error taken =>
    if significand != 0 && !down then failAt .numberOutOfRange (start.after (run.take taken))
    else pure (if negative then -0.0 else 0.0)

/-- Whether a character marks an exponent. -/
def isExponentMark (c : Option Char) : Bool :=
  c == some 'e' || c == some 'E'

/-- The rest of a number behind its point. -/
def fractionPart (negative : Bool) (significand : Nat) (exponent : Int) : Reader Float := do
  let run ← takeRun Char.isDigit
  if run.isEmpty then
    match ← peek with
    | none => failHere .endInValue
    | some _ => failHere .invalidNumber
  else
    let (n, extra) := collectDigits significand run
    let e := exponent - (run.length - extra.length : Nat)
    if isExponentMark (← peek) then drop *> exponentPart negative n e
    else inRange (floatOfParts? negative n e)

/-- A number, its minus sign taken if it has one. -/
def numberBody (negative : Bool) : Reader Number := do
  let whole ← wholeDigits
  let (significand, extra) := collectDigits 0 whole
  let next ← peek
  if next == some '.' then do
    drop
    return .float (← fractionPart negative significand extra.length)
  else if isExponentMark next then do
    drop
    return .float (← exponentPart negative significand extra.length)
  else inRange (wholeNumber? negative whole)

end FusionInspect.Json.Reader
