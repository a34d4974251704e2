import FusionInspect.Entries
import FusionInspect.Text.Natural
import FusionInspect.Tree.Key
import FusionInspect.Tree.Scalar

/-!
# Nodes and branches

An object tree is made of three kinds of nodes. A scalar is a leaf. A branch is a mapping, a list of
entries because the order of keys is content. A wrapper is a mapping of a shape of its own: exactly
the three slots for a type, an expression and a value. It remembers the order of its slots, so that
nothing is lost when it is read as a branch again.

Mappings are classified when they are built (`Node.ofBranch`). Operations that change a mapping take
wrappers apart into branches (`Node.toBranch`) and classify what comes out.
-/

namespace FusionInspect

/-! ## Wrappers -/

/-- The slots of a wrapper. -/
inductive Slot where
  | objectType
  | expression
  | value
  deriving Repr, DecidableEq

namespace Slot

/-- The key of a slot. -/
def key : Slot → String
  | .objectType => Key.objectType
  | .expression => Key.expression
  | .value => Key.value

/-- The slot of a key. -/
def ofKey? (key : String) : Option Slot :=
  if key == Key.objectType then some .objectType
  else if key == Key.expression then some .expression
  else if key == Key.value then some .value
  else none

end Slot

/-- A mapping of exactly the three slots: a type and an expression, each a text or null, and a scalar
value. -/
structure Wrapper where
  objectType : Option String
  expression : Option String
  value : Scalar
  /-- The slots in the order of their keys. -/
  order : List Slot
  deriving Repr

namespace Wrapper

/-- The type, if there is one and it is not empty. -/
def objectType? (w : Wrapper) : Option String :=
  w.objectType.filter (· != "")

/-- The expression, if there is one and it is not empty. -/
def expression? (w : Wrapper) : Option String :=
  w.expression.filter (· != "")

/-- The value, unless it is loosely empty. -/
def value? (w : Wrapper) : Option Scalar :=
  if w.value.isEmpty then none else some w.value

/-- The scalar in a slot. -/
def slot (w : Wrapper) : Slot → Scalar
  | .objectType => w.objectType.elim .null .text
  | .expression => w.expression.elim .null .text
  | .value => w.value

/-- Wrappers are equal when their slots hold equal scalars, in whatever order. -/
def equal (v w : Wrapper) : Bool :=
  v.objectType == w.objectType && v.expression == w.expression && v.value == w.value

/-- The wrapper with its slots in natural order of their keys. -/
def sortKeys (w : Wrapper) : Wrapper :=
  { w with order := Order.sort (fun a b => Text.naturalLE a.key b.key) w.order }

end Wrapper

/-! ## Nodes -/

/-- A node of an object tree. -/
inductive Node where
  | scalar (value : Scalar)
  | wrapper (value : Wrapper)
  | branch (entries : List (String × Node))
  deriving Repr, Inhabited

/-- A mapping from keys to nodes, in order. -/
abbrev Branch := List (String × Node)

namespace Branch

/-- The node at a key. -/
def get? (b : Branch) (key : String) : Option Node :=
  Entries.find? key b

/-- Whether there is a node at a key. -/
def has (b : Branch) (key : String) : Bool :=
  (b.get? key).isSome

/-- The keys in order. -/
def keys (b : Branch) : List String :=
  b.map Prod.fst

/-- Puts a node at a key. A node that was there gives way to it in its place. -/
def insert (b : Branch) (key : String) (node : Node) : Branch :=
  Entries.put key node b

/-- Puts nodes at keys, one after the other. -/
def insertAll (b : Branch) (entries : List (String × Node)) : Branch :=
  Entries.putAll b entries

/-- The branch of some entries, where a repeated key keeps its first place and its last node. -/
def ofEntries (entries : List (String × Node)) : Branch :=
  Entries.collect entries

/-- Takes the entry of a key away. -/
def erase (b : Branch) (key : String) : Branch :=
  Entries.erase key b

/-- The type that a branch names, if it is a text and not empty. -/
def objectType? (b : Branch) : Option String :=
  match b.get? Key.objectType with
  | some (.scalar (.text s)) => if s == "" then none else some s
  | _ => none

end Branch

/-- The wrapper as a branch of three scalars. -/
def Wrapper.toBranch (w : Wrapper) : Branch :=
  w.order.map fun s => (s.key, .scalar (w.slot s))

namespace Node

/-- The scalar of a leaf. -/
def scalar? : Node → Option Scalar
  | .scalar s => some s
  | _ => none

/-- The text of a leaf that is a text. -/
def text? (n : Node) : Option String :=
  n.scalar?.bind Scalar.text?

/-- What may stand in the slot of a type or an expression: a text, or null for none. -/
def slotText? : Node → Option (Option String)
  | .scalar .null => some none
  | .scalar (.text s) => some (some s)
  | _ => none

/-- The branch of a branch node. -/
def branch? : Node → Option Branch
  | .branch b => some b
  | _ => none

/-- Wrappers and branches are mappings. -/
def isMapping : Node → Bool
  | .scalar _ => false
  | _ => true

/-- Whether the node is a mapping with a key for a type, whatever stands there. -/
def declaresType : Node → Bool
  | .scalar _ => false
  | .wrapper _ => true
  | .branch b => Branch.has b Key.objectType

/-- The node as a branch; a scalar has no entries. -/
def toBranch : Node → Branch
  | .scalar _ => []
  | .wrapper w => w.toBranch
  | .branch b => b

end Node

/-- Reads a branch as a wrapper: three entries, the three slots, each with what may stand there. -/
def Wrapper.ofBranch? (b : Branch) : Option Wrapper := do
  guard (b.length = 3)
  let objectType ← (← b.get? Key.objectType).slotText?
  let expression ← (← b.get? Key.expression).slotText?
  let value ← (← b.get? Key.value).scalar?
  let order ← b.keys.mapM Slot.ofKey?
  pure { objectType, expression, value, order }

/-- The node of a mapping: a wrapper if it has that shape, a branch otherwise. -/
def Node.ofBranch (b : Branch) : Node :=
  match Wrapper.ofBranch? b with
  | some w => .wrapper w
  | none => .branch b

/-! ## Equality -/

mutual
/-- Equality of trees. Keys are compared in order, but not the order of a wrapper's slots; a zero
equals a negative zero, and an integer never equals a floating-point number. -/
def Node.equal : Node → Node → Bool
  | .scalar a, .scalar b => a == b
  | .wrapper v, .wrapper w => v.equal w
  | .branch a, .branch b => Branch.equal a b
  | _, _ => false
/-- Equality of branches: the same keys in the same order with equal nodes. -/
def Branch.equal : Branch → Branch → Bool
  | [], [] => true
  | (k, m) :: a, (l, n) :: b => k == l && Node.equal m n && Branch.equal a b
  | _, _ => false
end

instance : BEq Node := ⟨Node.equal⟩

/-! ## Key order -/

/-- Entries by the natural order of their keys. -/
def Branch.sortEntries (b : Branch) : Branch :=
  Order.sort (fun d e => Text.naturalLE d.1 e.1) b

mutual
/-- The node with the keys of every mapping in it in natural order. -/
def Node.sortKeys : Node → Node
  | .scalar s => .scalar s
  | .wrapper w => .wrapper w.sortKeys
  | .branch b => .branch (Branch.sortEntries (Branch.sortChildren b))
/-- The branch with the nodes in it sorted, its own entries left in place. -/
def Branch.sortChildren : Branch → Branch
  | [] => []
  | (k, n) :: rest => (k, n.sortKeys) :: Branch.sortChildren rest
end

/-- The branch with its keys, and those of every mapping in it, in natural order. -/
def Branch.sortKeys (b : Branch) : Branch :=
  Branch.sortEntries (Branch.sortChildren b)

/-! ## JSON -/

mutual
/-- The node of a JSON value. The items of a list become entries whose keys count from zero. -/
def Node.ofJson : Json → Node
  | .null => .scalar .null
  | .bool b => .scalar (.bool b)
  | .number n => .scalar (.number n)
  | .string s => .scalar (.text s)
  | .array items => Node.ofBranch (Branch.ofEntries (Branch.ofItems 0 items))
  | .object entries => Node.ofBranch (Branch.ofEntries (Branch.ofMembers entries))
/-- The items of a list under their positions, counted from the given one. -/
def Branch.ofItems (i : Nat) : List Json → List (String × Node)
  | [] => []
  | v :: rest => (toString i, Node.ofJson v) :: Branch.ofItems (i + 1) rest
/-- The entries of an object, each with the node of its value. -/
def Branch.ofMembers : List (String × Json) → List (String × Node)
  | [] => []
  | (k, v) :: rest => (k, Node.ofJson v) :: Branch.ofMembers rest
end

/-- The wrapper as a JSON value. -/
def Wrapper.toJson (w : Wrapper) : Json :=
  .object (w.order.map fun s => (s.key, (w.slot s).toJson))

mutual
/-- The node as a JSON value. -/
def Node.toJson : Node → Json
  | .scalar s => s.toJson
  | .wrapper w => w.toJson
  | .branch b => .object (Branch.toMembers b)
/-- The entries of a branch, each with the JSON value of its node. -/
def Branch.toMembers : Branch → List (String × Json)
  | [] => []
  | (k, n) :: rest => (k, n.toJson) :: Branch.toMembers rest
end

/-- The branch as a JSON value. -/
def Branch.toJson (b : Branch) : Json :=
  .object (Branch.toMembers b)

end FusionInspect
