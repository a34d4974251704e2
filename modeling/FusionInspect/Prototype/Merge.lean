import FusionInspect.Tree.Node

/-!
# Merging definitions

A definition is extended by another one key by key. A mapping extends a mapping entry by entry, unless
it declares a type: then it is a new object and replaces what was there, as a scalar does. Wrappers
always declare a type.
-/

namespace FusionInspect

mutual
/-- Extends a definition by the entries of another. -/
def Branch.merge (base : Branch) : Branch → Branch
  | [] => base
  | (key, node) :: rest => Branch.merge (base.insert key (Node.merged (base.get? key) node)) rest
/-- What stands at a key after a node has extended an old one. -/
def Node.merged (old : Option Node) : Node → Node
  | .scalar s => .scalar s
  | .wrapper w => .wrapper w
  | .branch extender =>
    match Branch.has extender Key.objectType, old with
    | false, some (.wrapper v) => .ofBranch (Branch.merge v.toBranch extender)
    | false, some (.branch b) => .ofBranch (Branch.merge b extender)
    | _, _ => .branch extender
end

end FusionInspect
