import FusionInspect.Json.Basic

/-!
# Writing values

A value is written on one line without blanks, or indented by two spaces a level. Strings escape the
quote, the backslash and the control characters, and nothing else.
-/

namespace FusionInspect.Json

/-- A hexadecimal digit. -/
def hexChar (n : Nat) : Char :=
  Nat.digitChar n

/-- One character of a written string. -/
def writtenChar (c : Char) : List Char :=
  if c == '"' then ['\\', '"']
  else if c == '\\' then ['\\', '\\']
  else if c == '\x08' then ['\\', 'b']
  else if c == '\x0c' then ['\\', 'f']
  else if c == '\n' then ['\\', 'n']
  else if c == '\r' then ['\\', 'r']
  else if c == '\t' then ['\\', 't']
  else if c < ' ' then ['\\', 'u', '0', '0', hexChar (c.toNat / 16), hexChar (c.toNat % 16)]
  else [c]

/-- A written string, its quotes included. -/
def writtenString (text : String) : String :=
  String.ofList ('"' :: text.toList.flatMap writtenChar ++ ['"'])

/-- Texts with a separator between them. -/
def joined (separator : String) (texts : List String) : String :=
  String.intercalate separator texts

mutual
/-- The value on one line, without blanks. -/
def compact : Json → String
  | .null => "null"
  | .bool true => "true"
  | .bool false => "false"
  | .number n => n.text
  | .string s => writtenString s
  | .array items => "[" ++ joined "," (compactItems items) ++ "]"
  | .object entries => "\x7b" ++ joined "," (compactEntries entries) ++ "\x7d"
/-- The items of a list, each on its own. -/
def compactItems : List Json → List String
  | [] => []
  | v :: rest => compact v :: compactItems rest
/-- The entries of an object, each with its key. -/
def compactEntries : List (String × Json) → List String
  | [] => []
  | (k, v) :: rest => (writtenString k ++ ":" ++ compact v) :: compactEntries rest
end

/-- The blanks of an indented line, with the line break before it. -/
def lineBreak (level : Nat) : String :=
  String.ofList ('\n' :: List.replicate (2 * level) ' ')

/-- Parts between brackets, each on a line of its own; no parts leave the brackets empty. -/
def block (level : Nat) (opening closing : String) (parts : List String) : String :=
  if parts.isEmpty then opening ++ closing
  else
    opening ++ lineBreak (level + 1) ++ joined ("," ++ lineBreak (level + 1)) parts
      ++ lineBreak level ++ closing

mutual
/-- The value indented by two spaces a level, from the given level on. -/
def indented (level : Nat) : Json → String
  | .null => "null"
  | .bool true => "true"
  | .bool false => "false"
  | .number n => n.text
  | .string s => writtenString s
  | .array items => block level "[" "]" (indentedItems (level + 1) items)
  | .object entries => block level "\x7b" "\x7d" (indentedEntries (level + 1) entries)
/-- The items of a list, each indented. -/
def indentedItems (level : Nat) : List Json → List String
  | [] => []
  | v :: rest => indented level v :: indentedItems level rest
/-- The entries of an object, each indented behind its key. -/
def indentedEntries (level : Nat) : List (String × Json) → List String
  | [] => []
  | (k, v) :: rest => (writtenString k ++ ": " ++ indented level v) :: indentedEntries level rest
end

/-- The value over several lines, indented by two spaces a level. -/
def pretty (v : Json) : String :=
  indented 0 v

end FusionInspect.Json
