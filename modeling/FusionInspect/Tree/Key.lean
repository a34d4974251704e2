/-!
# Reserved keys

Keys that start with two underscores are reserved. Eight of them have a meaning, and no other may be
declared.
-/

namespace FusionInspect.Key

/-- Key of an expression to be evaluated. -/
def expression : String := "__eelExpression"

/-- Key of the meta properties of an object. -/
def metaProperties : String := "__meta"

/-- Key of the prototype that an object is an instance of. -/
def objectType : String := "__objectType"

/-- Key of the names that a prototype inherits from. -/
def prototypeChain : String := "__prototypeChain"

/-- Key of the name under which a prototype was declared. -/
def prototypeObjectName : String := "__prototypeObjectName"

/-- Key of the table of prototypes. -/
def prototypes : String := "__prototypes"

/-- Key that ends an inheritance chain. -/
def stopInheritanceChain : String := "__stopInheritanceChain"

/-- Key of a plain value. -/
def value : String := "__value"

/-- The reserved keys that have a meaning. -/
def reserved : List String :=
  [expression, metaProperties, objectType, prototypeChain, prototypeObjectName, prototypes,
    stopInheritanceChain, value]

/-- Whether a key is reserved but has no meaning. -/
def isUnknown (key : String) : Bool :=
  ['_', '_'].isPrefixOf key.toList && !reserved.contains key

end FusionInspect.Key
