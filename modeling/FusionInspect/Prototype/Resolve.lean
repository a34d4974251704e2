import FusionInspect.Error
import FusionInspect.Prototype.Merge

/-!
# Resolving prototypes

The definition of a prototype is completed by those of its ancestors. The names of its chain are
resolved in turn and merged onto each other, first name first; its own declarations are merged last.
A prototype that heads its own chain is the base of the others instead. A prototype without a chain
stays as it is.

A chain that leads back to a prototype whose chain is still being followed is refused. The names being
followed are distinct names of the table, so the size of the table bounds the depth of the search.
-/

namespace FusionInspect

/-- The names that a definition inherits from, if it has a chain. A single text is a chain of one
name; what is no text is passed over. -/
def Branch.chain? (definition : Branch) : Option (List String) :=
  match definition.get? Key.prototypeChain with
  | none => none
  | some (.branch names) => some (names.filterMap fun e => e.2.text?)
  | some (.scalar (.text name)) => some [name]
  | some _ => some []

namespace Prototype

/-- The own declarations of a prototype. -/
def bare (table : Branch) (name : String) : Except Error Branch :=
  match table.get? name with
  | some node => pure node.toBranch
  | none => throw (.missingPrototype name)

/-- A definition without its bookkeeping, in natural order. -/
def settle (definition : Branch) : Branch :=
  Branch.sortKeys ((definition.erase Key.prototypeChain).erase Key.stopInheritanceChain)

/-- Merges the resolved definitions of ancestors onto a definition, in order. -/
def inherit (resolve : String → Except Error Branch) (definition : Branch) :
    List String → Except Error Branch
  | [] => pure definition
  | ancestor :: rest => do
    let inherited ← resolve ancestor
    inherit resolve (definition.merge inherited) rest

/-- The completed definition of a prototype, while the chains of others are being followed. -/
def resolveIn (table : Branch) : Nat → List String → String → Except Error Branch
  | 0, _, name => throw (.cyclicPrototype name)
  | fuel + 1, following, name => do
    let own ← bare table name
    match own.chain? with
    | none | some [] => pure own
    | some (first :: rest) =>
      if following.contains name then throw (.cyclicPrototype name)
      else
        let resolve := resolveIn table fuel (name :: following)
        if first == name then
          return settle (← inherit resolve own rest)
        else
          let definition ← inherit resolve (← resolve first) rest
          return settle (definition.merge own)

/-- The completed definition of a prototype. -/
def resolve (table : Branch) (name : String) : Except Error Branch :=
  resolveIn table (table.length + 1) [] name

end Prototype

end FusionInspect
