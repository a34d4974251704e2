/-!
# Errors

What can go wrong, by cause. The wording of each cause stands in one place, and each cause has a
stable code, from which the exit code of a program is taken.
-/

namespace FusionInspect

/-- Why a source does not declare an object tree. -/
inductive ParseError where
  /-- The text is no document. -/
  | malformed (line column : Nat) (detail : String)
  /-- Something is declared where it may not be. -/
  | unknownDeclaration (declaration : String)
  /-- A prototype chain is no list of names. -/
  | invalidChain (prototype : String)
  deriving Repr, DecidableEq

/-- The wording of a parse error. -/
def ParseError.message : ParseError → String
  | .malformed line column detail =>
    "Syntax error on line " ++ toString line ++ ", column " ++ toString column ++ ": " ++ detail ++ "!"
  | .unknownDeclaration declaration => "Unknown declaration given: " ++ declaration ++ "!"
  | .invalidChain prototype =>
    "The prototype chain of " ++ prototype ++ " is not a list of prototype names!"

/-- Why an inspection fails. -/
inductive Error where
  /-- No prototype of that name is declared. -/
  | missingPrototype (name : String)
  /-- The chain of the prototype leads back to it. -/
  | cyclicPrototype (name : String)
  /-- A file holds no declarations. -/
  | unparsable (path : String) (cause : ParseError)
  /-- A file cannot be read as text. -/
  | unreadable (path : String)
  /-- Nothing stands at a path of the object tree. -/
  | pathNotFound (path : String)
  /-- A configuration cannot be used. -/
  | badConfig (path message : String)
  deriving Repr, DecidableEq

namespace Error

/-- The wording of an error. -/
def message : Error → String
  | .missingPrototype name =>
    "Could not find any prototype definition for " ++ name
      ++ "! Maybe you misspelled the name or its source package is not active."
  | .cyclicPrototype name =>
    "The prototype definition for " ++ name
      ++ " is invalid! Its prototype chain refers back to itself."
  | .unparsable path cause => "Failed to parse fusion file at " ++ path ++ "! " ++ cause.message
  | .unreadable path => "Fusion file " ++ path ++ " does not exist or is not readable!"
  | .pathNotFound path => "The fusion path " ++ path ++ " does not exist in the object tree!"
  | .badConfig path message => "Invalid configuration in " ++ path ++ ": " ++ message

/-- The stable code of a cause. -/
def code : Error → Nat
  | .missingPrototype _ => 1564131267910
  | .cyclicPrototype _ => 1564131470406
  | .unparsable _ _ => 1564130709438
  | .unreadable _ => 1564159029025
  | .pathNotFound _ => 1564160212537
  | .badConfig _ _ => 1564160389214

/-- The exit code of a program that fails: the code reduced to a byte, and never zero. -/
def exitCode (e : Error) : Nat :=
  if e.code % 255 = 0 then 1 else e.code % 255

end Error

end FusionInspect
