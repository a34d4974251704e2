import FusionInspect.Error
import FusionInspect.Tree.Object

/-!
# A tree that is loaded once

The cache holds an object tree after the first load that succeeds. A load that fails leaves it empty.
-/

namespace FusionInspect

/-- Room for one object tree. -/
structure TreeCache where
  tree? : Option ObjectTree
  deriving Repr

namespace TreeCache

/-- Nothing is loaded. -/
def empty : TreeCache := ⟨none⟩

/-- Whether a tree is loaded. -/
def isLoaded (c : TreeCache) : Bool :=
  c.tree?.isSome

/-- The tree in the cache, or the one that loading gives. Loading may change a state of its own, and
runs only while the cache is empty. -/
def getOrLoad {σ : Type} (load : σ → Except Error ObjectTree × σ) (c : TreeCache) (state : σ) :
    Except Error ObjectTree × TreeCache × σ :=
  match c.tree? with
  | some t => (.ok t, c, state)
  | none =>
    match load state with
    | (.ok t, state) => (.ok t, ⟨some t⟩, state)
    | (.error e, state) => (.error e, c, state)

end TreeCache

end FusionInspect
