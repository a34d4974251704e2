import FusionInspect.Text.Word

/-!
# Colouring lines

A drawn line is coloured by rules that run one after the other, each on what the rule before it left.
A rule looks for its pattern from left to right and paints a part of each match; a match is never
looked into again by the same rule. The root line is painted as a whole.

A rule finds a match at the start of a text and cuts it into what is left as it is and what is painted.
Nothing of the text is changed, only escapes are added.
-/

namespace FusionInspect.Colour

/-- How a part of a line is painted. -/
inductive Style where
  | red
  | green
  | blue
  | magenta
  | highlight
  | alarm
  deriving Repr, DecidableEq

/-- The codes that turn a style on. -/
def Style.codes : Style → List Nat
  | .red => [31]
  | .green => [32]
  | .blue => [34]
  | .magenta => [35]
  | .highlight => [33, 1]
  | .alarm => [31, 7]

/-- The escape of a code. -/
def escape (code : Nat) : List Char :=
  '\x1b' :: '[' :: Nat.toDigits 10 code ++ ['m']

/-- A text between the escapes of a style and the one that ends it. -/
def paint (style : Style) (text : List Char) : List Char :=
  style.codes.flatMap escape ++ text ++ escape 0

/-- A match at the start of a text: what is left as it is, and what is painted behind that. -/
structure Match where
  lead : List Char
  painted : Option (Style × List Char)
  deriving Repr

/-- A match with a painted part. -/
def Match.of (style : Style) (lead part : List Char) : Match :=
  ⟨lead, some (style, part)⟩

/-- The text that a match covers. -/
def Match.covered (m : Match) : List Char :=
  m.lead ++ match m.painted with
    | some (_, part) => part
    | none => []

/-- A rule finds a match at the start of a text. -/
abbrev Rule := List Char → Option Match

/-! ## Parts of patterns -/

/-- What follows a fixed text. -/
def after? : List Char → List Char → Option (List Char)
  | [], cs => some cs
  | _ :: _, [] => none
  | m :: ms, c :: cs => if c == m then after? ms cs else none

/-- A run of at least one character that passes a test, and what follows. -/
def run? (test : Char → Bool) (cs : List Char) : Option (List Char × List Char) :=
  let run := cs.takeWhile test
  if run.isEmpty then none else some (run, cs.dropWhile test)

/-- The text up to the last mark on the line, the mark included, and what follows. -/
def throughLast (mark : Char) : List Char → Option (List Char × List Char)
  | [] => none
  | c :: cs =>
    if c == '\n' then none
    else match throughLast mark cs with
      | some (text, rest) => some (c :: text, rest)
      | none => if c == mark then some ([c], cs) else none

/-- As `throughLast`, with at least one character before the mark. -/
def enclosed? (mark : Char) : List Char → Option (List Char × List Char)
  | [] => none
  | c :: cs =>
    if c == '\n' then none else (throughLast mark cs).map fun (text, rest) => (c :: text, rest)

/-- The characters of the name of a type. -/
def isTypePart (c : Char) : Bool :=
  c.isAlphanum || c == '.' || c == ':'

/-- The characters of a key in front of a type. -/
def isKeyPart (c : Char) : Bool :=
  Text.isWord c || c == '-'

/-! ## Rules -/

/-- Meta properties. -/
def metaRule : Rule := fun cs => do
  let rest ← after? ['@'] cs
  let (name, _) ← run? Text.isNamePart rest
  pure (.of .red [] ('@' :: name))

/-- Expressions. -/
def expressionRule : Rule := fun cs => do
  let rest ← after? ['$', '\x7b'] cs
  let (body, _) ← enclosed? '\x7d' rest
  pure (.of .magenta [] ('$' :: '\x7b' :: body))

/-- The text in front of the type of an object. -/
def objectTypeLead : List Char := "__objectType => ".toList

/-- Types of objects. One that starts like a missing type is left as it is. -/
def objectTypeRule : Rule := fun cs => do
  let rest ← after? objectTypeLead cs
  let (name, _) ← run? isTypePart rest
  if ['n', 'u', 'l', 'l'].isPrefixOf name then pure ⟨objectTypeLead ++ name, none⟩
  else pure (.of .highlight objectTypeLead name)

/-- What joins a key to a bracketed type: a blank, with an arrow before it or not. -/
def joint? (cs : List Char) : Option (List Char) :=
  if (after? " => ".toList cs).isSome then some " => ".toList
  else if (after? [' '] cs).isSome then some [' ']
  else none

/-- The joint and the bracketed type behind a key. -/
def keyType? (cs : List Char) : Option (List Char × List Char) := do
  let joint ← joint? cs
  let rest ← after? (joint ++ ['[']) cs
  let (name, rest) ← run? isTypePart rest
  let _ ← after? [']'] rest
  pure (joint, '[' :: name ++ [']'])

/-- Types in brackets behind a key. A key without a type is left as it is, as a whole: no end of it
has a type either. -/
def typedKeyRule : Rule := fun cs => do
  let (key, rest) ← run? isKeyPart cs
  match keyType? rest with
  | some (joint, type) => pure (.of .highlight (key ++ joint) type)
  | none => pure ⟨key, none⟩

/-- Names behind the end of a connector. -/
def nameRule (style : Style) (mark : List Char) : Rule := fun cs => do
  let rest ← after? ['─', ' '] cs
  let rest ← after? mark rest
  let (name, _) ← run? Text.isNamePart rest
  pure (.of style ['─', ' '] (mark ++ name))

/-- Texts in quotes. -/
def quotedRule : Rule := fun cs => do
  let rest ← after? ['"'] cs
  let (body, _) ← enclosed? '"' rest
  pure (.of .green [] ('"' :: body))

/-- The mark of an unknown prototype at the end of a line. -/
def unknownRule : Rule := fun cs =>
  if cs == ['(', '?', ')'] then some (.of .alarm [] cs) else none

/-- Truth values at the end of a line. -/
def boolRule : Rule := fun cs =>
  match cs with
  | ' ' :: word => if word == "true".toList || word == "false".toList then
      some (.of .green [' '] word) else none
  | _ => none

/-- The rules in the order they run. Quoted texts come late, so that what is painted by then is not
looked at as a key. -/
def rules : List Rule :=
  [metaRule, expressionRule, objectTypeRule, typedKeyRule, nameRule .red ['_', '_'],
    nameRule .blue [], quotedRule, unknownRule, boolRule]

/-! ## Lines -/

/-- A match with its part painted. -/
def Match.text (m : Match) : List Char :=
  m.lead ++ match m.painted with
    | some (style, part) => paint style part
    | none => []

/-- Runs a rule over a text. What a match covers is counted off, so that the search goes on behind it. -/
def applyFrom (rule : Rule) : Nat → List Char → List Char
  | _, [] => []
  | skip + 1, _ :: cs => applyFrom rule skip cs
  | 0, c :: cs =>
    match rule (c :: cs) with
    | some m => m.text ++ applyFrom rule (m.covered.length - 1) cs
    | none => c :: applyFrom rule 0 cs

/-- A line with one rule applied. -/
def apply (line : List Char) (rule : Rule) : List Char :=
  applyFrom rule 0 line

/-- A coloured line. -/
def line (text : String) : String :=
  String.ofList (rules.foldl apply text.toList)

/-- A coloured root label. -/
def root (label : String) : String :=
  String.ofList (paint .highlight label.toList)

/-- Coloured lines of a tree, the first of them its root label. -/
def tree : List String → List String
  | [] => []
  | label :: lines => root label :: lines.map line

end FusionInspect.Colour
