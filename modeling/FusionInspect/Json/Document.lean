import FusionInspect.Entries
import FusionInspect.Json.Token

/-!
# Documents

A document is one value with blanks around it. At most 127 lists and objects may be open at a time,
and that bound is what the reading of a value recurses on. The items of a list and the entries of an
object are read by loops that any reader of one item can be put into.
-/

namespace FusionInspect.Json

namespace Reader

/-- How many lists and objects may be open at a time. -/
def depthLimit : Nat := 127

/-! ## Lists and objects -/

/-- Whether another item of a list follows; the comma before it is taken. -/
def moreItems (first : Bool) : Reader Bool := do
  match ← peekToken with
  | none => failHere .endInList
  | some c =>
    if c == ']' then pure false
    else if first then pure true
    else if c == ',' then do
      drop
      match ← peekToken with
      | none => failHere .endInValue
      | some d => if d == ']' then failHere .trailingComma else pure true
    else failHere .expectedListComma

/-- Whether another key of an object follows; the comma before it is taken. -/
def moreKeys (first : Bool) : Reader Bool := do
  match ← peekToken with
  | none => failHere .endInObject
  | some c =>
    if c == '\x7d' then pure false
    else if first then
      if c == '"' then pure true else failHere .keyNotString
    else if c == ',' then do
      drop
      match ← peekToken with
      | none => failHere .endInValue
      | some d =>
        if d == '"' then pure true
        else if d == '\x7d' then failHere .trailingComma
        else failHere .keyNotString
    else failHere .expectedObjectComma

/-- Takes the colon between a key and its value. -/
def colon : Reader Unit := do
  match ← peekToken with
  | none => failHere .endInObject
  | some c => if c == ':' then drop else failHere .expectedColon

/-- The items of a list up to its closing bracket, which is taken. -/
def itemsLoop {α : Type} (item : Reader α) : Nat → Bool → List α → Reader (List α)
  | 0, _, _ => failHere .endInList
  | fuel + 1, first, read => do
    if ← moreItems first then
      let a ← item
      itemsLoop item fuel false (a :: read)
    else
      drop
      pure read.reverse

/-- The items of a list, its opening bracket taken. -/
def items {α : Type} (item : Reader α) : Reader (List α) := do
  itemsLoop item ((← remaining) + 1) true []

/-- The entries of an object up to its closing brace, which is taken. -/
def entriesLoop {α : Type} (value : Reader α) :
    Nat → Bool → List (String × α) → Reader (List (String × α))
  | 0, _, _ => failHere .endInObject
  | fuel + 1, first, read => do
    if ← moreKeys first then
      drop
      let key ← stringBody
      colon
      let a ← value
      entriesLoop value fuel false ((key, a) :: read)
    else
      drop
      pure read.reverse

/-- The entries of an object, its opening brace taken. -/
def entries {α : Type} (value : Reader α) : Reader (List (String × α)) := do
  entriesLoop value ((← remaining) + 1) true []

/-! ## Values -/

/-- A value that is neither list nor object, by its first character. -/
def plainValue (c : Char) : Reader Json :=
  if c == 'n' then do drop; literal ['u', 'l', 'l']; pure .null
  else if c == 't' then do drop; literal ['r', 'u', 'e']; pure (.bool true)
  else if c == 'f' then do drop; literal ['a', 'l', 's', 'e']; pure (.bool false)
  else if c == '-' then do drop; return .number (← numberBody true)
  else if c.isDigit then do return .number (← numberBody false)
  else if c == '"' then do drop; return .string (← stringBody)
  else failHere .expectedValue

/-- A value, inside lists and objects that leave room for so many more. -/
def value : Nat → Reader Json
  | 0 => do
    match ← peekToken with
    | none => failHere .endInValue
    | some c => if c == '[' || c == '\x7b' then failHere .nestedTooDeep else plainValue c
  | room + 1 => do
    match ← peekToken with
    | none => failHere .endInValue
    | some c =>
      if c == '[' then do
        drop
        return .array (← items (value room))
      else if c == '\x7b' then do
        drop
        return .object (Entries.collect (← entries (value room)))
      else plainValue c

/-- Makes sure that only blanks are left. -/
def finish : Reader Unit := do
  match ← peekToken with
  | none => pure ()
  | some _ => failHere .trailingCharacters

/-- A value with blanks around it and nothing else. -/
def document : Reader Json := do
  let v ← value depthLimit
  finish
  pure v

end Reader

/-- The value that a text writes. -/
def parse (text : String) : Except Fault Json :=
  Reader.document.run text

end FusionInspect.Json
