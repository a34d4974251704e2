import FusionInspect.Command.Lint
import FusionInspect.Command.Show

/-!
# Usage of the command line

The arguments of the program name a command. Options that say where files are found may stand before or
behind the command; every other option belongs to a command. An option with a value takes it behind an
equals sign or from the next argument, which must not look like an option. Behind two dashes
everything is taken as it is.

Arguments are read from left to right by a specification of the options that may stand there. Options
of the same kind before and behind the command do not add up: what stands behind it counts.
-/

namespace FusionInspect.CommandLine

/-- Options that say where files are found. -/
structure Location where
  config : Option String
  root : Option String
  patterns : List String
  extension : Option String
  deriving Repr, DecidableEq

/-- What the first says, unless the second says something else. -/
def Location.orElse (outer inner : Location) : Location where
  config := inner.config <|> outer.config
  root := inner.root <|> outer.root
  patterns := if inner.patterns.isEmpty then outer.patterns else inner.patterns
  extension := inner.extension <|> outer.extension

/-- A command with its options. -/
inductive Command where
  | lint (package : Option String) (options : LintOptions)
  | showObjectTree (path : Option String) (options : DisplayOptions)
  | debugPrototype (name : String) (options : DisplayOptions)
  | listPrototypes (options : ListOptions)
  deriving Repr, DecidableEq

/-- A command and where its files are found. -/
structure Invocation where
  location : Location
  command : Command
  deriving Repr, DecidableEq

/-! ## Options -/

/-- How often an option may be given, and what it takes. -/
inductive OptionKind where
  /-- No value. -/
  | flag
  /-- One value. -/
  | text
  /-- One value, which must not be empty. -/
  | path
  /-- One value each time, any number of times. -/
  | texts
  deriving Repr, DecidableEq

/-- An option by its long name and, if it has one, its letter. -/
structure OptionSpec where
  name : String
  letter : Option Char
  kind : OptionKind
  deriving Repr, DecidableEq

/-- Options for where files are found. -/
def locationSpecs : List OptionSpec :=
  [⟨"config", none, .path⟩, ⟨"root", none, .path⟩, ⟨"pattern", none, .texts⟩,
    ⟨"extension", none, .text⟩]

/-- Arguments sorted out: options with their values, and the others, both in order. -/
structure Sorted where
  options : List (String × String)
  positionals : List String
  deriving Repr, DecidableEq

/-- No arguments. -/
def Sorted.empty : Sorted := ⟨[], []⟩

/-- Whether an option was given. -/
def Sorted.has (s : Sorted) (name : String) : Bool :=
  s.options.any fun o => o.1 == name

/-- The values of an option. -/
def Sorted.values (s : Sorted) (name : String) : List String :=
  (s.options.filter fun o => o.1 == name).map Prod.snd

/-- The value of an option. -/
def Sorted.value? (s : Sorted) (name : String) : Option String :=
  (s.values name).head?

/-- Takes an option with its value in. It must not be given twice, unless it may be given any number
of times, and a path must not be empty. -/
def Sorted.take (s : Sorted) (o : OptionSpec) (value : String) : Option Sorted :=
  if o.kind != .texts && s.has o.name then none
  else if o.kind == .path && value == "" then none
  else some { s with options := s.options ++ [(o.name, value)] }

/-- An argument by its form. -/
inductive Argument where
  /-- Two dashes alone. -/
  | dashes
  /-- Two dashes and a name, with the value behind an equals sign if there is one. -/
  | long (name : String) (value : Option String)
  /-- A dash and a letter, with what is attached to it. -/
  | letter (letter : Char) (attached : List Char)
  /-- Anything else; a dash alone is such. -/
  | plain (text : String)
  deriving Repr, DecidableEq

/-- The form of an argument. -/
def Argument.ofText (text : String) : Argument :=
  match text.toList with
  | ['-', '-'] => .dashes
  | '-' :: '-' :: cs =>
    let name := String.ofList (cs.takeWhile (· != '='))
    match cs.dropWhile (· != '=') with
    | [] => .long name none
    | _ :: value => .long name (some (String.ofList value))
  | '-' :: c :: cs => .letter c cs
  | _ => .plain text

/-- The value attached to a letter; an equals sign in front of it is left out. -/
def attachedValue? : List Char → Option String
  | [] => none
  | '=' :: cs => some (String.ofList cs)
  | cs => some (String.ofList cs)

/-- An option with the value given in the same argument, if there is one. -/
def optionOf? (specs : List OptionSpec) : Argument → Option (OptionSpec × Option String)
  | .long name value => (specs.find? fun o => o.name == name).map (·, value)
  | .letter c attached =>
    (specs.find? fun o => o.letter == some c).map (·, attachedValue? attached)
  | _ => none

/-- Sorts arguments out by a specification, while an option may be waiting for its value. At an
argument that is no option, `stop` ends the sorting; the arguments from there on are given back. -/
def sortOut (specs : List OptionSpec) (stop : Bool) :
    Option OptionSpec → Sorted → List String → Option (Sorted × List String)
  | none, s, [] => some (s, [])
  | some _, _, [] => none
  | some o, s, arg :: rest =>
    match Argument.ofText arg with
    | .plain value => (s.take o value).bind fun s => sortOut specs stop none s rest
    | _ => none
  | none, s, arg :: rest =>
    match Argument.ofText arg with
    | .dashes => if stop then none else some ({ s with positionals := s.positionals ++ rest }, [])
    | .plain text =>
      if stop then some (s, text :: rest)
      else sortOut specs stop none { s with positionals := s.positionals ++ [text] } rest
    | form =>
      match optionOf? specs form with
      | none => none
      | some (o, some value) =>
        if o.kind == .flag then none
        else (s.take o value).bind fun s => sortOut specs stop none s rest
      | some (o, none) =>
        if o.kind == .flag then (s.take o "").bind fun s => sortOut specs stop none s rest
        else sortOut specs stop (some o) s rest

/-- What options say about where files are found. -/
def Sorted.location (s : Sorted) : Location where
  config := s.value? "config"
  root := s.value? "root"
  patterns := s.values "pattern"
  extension := s.value? "extension"

/-! ## Commands -/

/-- Options for how trees are shown. -/
def displaySpecs : List OptionSpec :=
  [⟨"no-color", none, .flag⟩, ⟨"no-flatten", none, .flag⟩, ⟨"json", none, .flag⟩]

/-- How trees are shown. JSON is never coloured. -/
def Sorted.display (s : Sorted) : DisplayOptions where
  colour := !s.has "no-color" && !s.has "json"
  flatten := !s.has "no-flatten"
  json := s.has "json"

/-- The options of a command, by its name. -/
def commandSpecs? (name : String) : Option (List OptionSpec) :=
  if name == "lint" then
    some [⟨"package", some 'p', .text⟩, ⟨"verbose", none, .flag⟩, ⟨"quiet", none, .flag⟩]
  else if name == "show-object-tree" then some displaySpecs
  else if name == "debug-prototype" then some displaySpecs
  else if name == "list-prototypes" then some [⟨"no-format", none, .flag⟩, ⟨"no-sort", none, .flag⟩]
  else none

/-- A command by its name and its arguments. -/
def command? (name : String) (s : Sorted) : Option Command :=
  match name, s.positionals with
  | "lint", [] => some (.lint (s.value? "package") ⟨s.has "verbose", s.has "quiet"⟩)
  | "show-object-tree", [] => some (.showObjectTree none s.display)
  | "show-object-tree", [path] => some (.showObjectTree (some path) s.display)
  | "debug-prototype", [prototype] => some (.debugPrototype prototype s.display)
  | "list-prototypes", [] => some (.listPrototypes ⟨!s.has "no-format", !s.has "no-sort"⟩)
  | _, _ => none

/-- What some arguments ask for, if they are used rightly. -/
def invocation? (args : List String) : Option Invocation := do
  match ← sortOut locationSpecs true none .empty args with
  | (_, []) => none
  | (outer, name :: rest) =>
    let (inner, _) ← sortOut (locationSpecs ++ (← commandSpecs? name)) false none .empty rest
    let command ← command? name inner
    pure ⟨outer.location.orElse inner.location, command⟩

end FusionInspect.CommandLine
