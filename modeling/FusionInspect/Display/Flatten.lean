import FusionInspect.Display.Placement
import FusionInspect.Text.LowerCase

/-!
# Flattening for display

A definition is flattened into what a reader wants to see. Each entry contributes to the display:
wrappers become a marker or a plain value, typed branches move their type into the key, meta
properties become siblings with an `@` in front, and branches that show nothing disappear. A later
contribution at a key replaces an earlier one. Every level is then placed by position, meta keys
first.

A wrapper that has no plain form shows its three slots. They are scalars, so there is nothing further
to flatten in them.
-/

namespace FusionInspect.Display

/-- What stands behind the name of a prototype that is not in the table. -/
def unknownMark : String := " (?)"

/-- A label for an object of some type, marked if the type is not known. -/
def marked (known : String → Bool) (label objectType : String) : String :=
  if known objectType then label else label ++ unknownMark

/-- Whether a key is that of a meta property. -/
def isMetaKey (key : String) : Bool :=
  key.toList.head? == some '@'

/-- Whether a key is one of a wrapper's. -/
def isSlotKey (key : String) : Bool :=
  (Slot.ofKey? key).isSome

/-- The plain form of a wrapper: a marker for its type, else its value, else its expression. -/
def collapsed? (known : String → Bool) (w : Wrapper) : Option Scalar :=
  match w.objectType? with
  | some t => some (.text (marked known ("prototype(" ++ t ++ ")") t))
  | none =>
    match w.value? with
    | some v => some v
    | none => w.expression?.map fun e => .text ("$\x7b" ++ e ++ "\x7d")

/-- Meta keys in front, by their lower case; the other entries as they are. -/
def hoistMeta (entries : List (String × Node)) : List (String × Node) :=
  let (hoisted, others) := entries.partition fun e => isMetaKey e.1
  Order.sort (fun d e => decide (Text.lower d.1 ≤ Text.lower e.1)) hoisted ++ others

/-- One level of the display: the last contribution at each key, placed by position, meta keys first. -/
def level (contributions : List (String × Node)) : Branch :=
  Branch.ofEntries (hoistMeta (Placement.arrange (Branch.ofEntries contributions)))

/-- The entry of a branch, unless the branch is empty. -/
def shown (key : String) (b : Branch) : List (String × Node) :=
  if b.isEmpty then [] else [(key, .branch b)]

mutual
/-- What an entry contributes to the display of its branch. -/
def contribution (known : String → Bool) (key : String) : Node → List (String × Node)
  | .scalar s => [(key, .scalar s)]
  | .wrapper w =>
    match collapsed? known w with
    | some s => [(key, .scalar s)]
    | none => shown key (level w.toBranch)
  | .branch b =>
    if key == Key.metaProperties then
      (level (contributions known false b)).map fun e => ("@" ++ e.1, e.2)
    else match Branch.objectType? b with
      | some t =>
        shown (marked known (key ++ " [" ++ t ++ "]") t) (level (contributions known true b))
      | none => shown key (level (contributions known false b))
/-- What the entries of a branch contribute, in order. The slots of a typed branch are left out. -/
def contributions (known : String → Bool) (typed : Bool) : Branch → List (String × Node)
  | [] => []
  | (key, node) :: rest =>
    (if typed && isSlotKey key then [] else contribution known key node)
      ++ contributions known typed rest
end

/-- The display of a branch. -/
def flattenBranch (known : String → Bool) (b : Branch) : Branch :=
  level (contributions known false b)

/-- The display of a definition against a table of prototypes, without its bookkeeping. -/
def flatten (table definition : Branch) : Branch :=
  ((flattenBranch table.has definition).erase Key.prototypeObjectName).erase
    Key.stopInheritanceChain

end FusionInspect.Display
