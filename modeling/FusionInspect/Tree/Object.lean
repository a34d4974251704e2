import FusionInspect.Tree.Node

/-!
# Object trees

The object tree accumulates the declarations of many files. A later scalar replaces what was there, a
mapping is merged into a mapping, and a prototype chain replaces an earlier one whole: a chain is
never a mixture of two files.

A wrapper holds scalars only, so absorbing one is putting its three scalars in place.
-/

namespace FusionInspect

mutual
/-- Absorbs entries into a branch, one after the other. -/
def Branch.absorb (base : Branch) : Branch → Branch
  | [] => base
  | (key, node) :: rest =>
    Branch.absorb (base.insert key (Node.absorbed key (base.get? key) node)) rest
/-- What stands at a key after a node was absorbed there over an old one. -/
def Node.absorbed (key : String) (old : Option Node) : Node → Node
  | .scalar s => .scalar s
  | .wrapper w =>
    match key == Key.prototypeChain, old with
    | false, some (.wrapper v) => .ofBranch (v.toBranch.insertAll w.toBranch)
    | false, some (.branch b) => .ofBranch (Branch.insertAll b w.toBranch)
    | _, _ => .wrapper w
  | .branch incoming =>
    match key == Key.prototypeChain, old with
    | false, some (.wrapper v) => .ofBranch (Branch.absorb v.toBranch incoming)
    | false, some (.branch b) => .ofBranch (Branch.absorb b incoming)
    | _, _ => .branch incoming
end

/-- The accumulated declarations of some files. -/
structure ObjectTree where
  root : Branch
  deriving Repr, Inhabited

namespace ObjectTree

/-- The tree without declarations. -/
def empty : ObjectTree := ⟨[]⟩

/-- Adds the declarations of a further file. -/
def absorb (t : ObjectTree) (declarations : Branch) : ObjectTree :=
  ⟨t.root.absorb declarations⟩

/-- The table of prototypes, empty if none was declared. -/
def prototypes (t : ObjectTree) : Branch :=
  match t.root.get? Key.prototypes with
  | some (.branch b) => b
  | _ => []

/-- The definition of a prototype. -/
def prototype? (t : ObjectTree) (name : String) : Option Node :=
  t.prototypes.get? name

end ObjectTree

end FusionInspect
