import FusionInspect.Error
import FusionInspect.Tree.Object

/-!
# Paths into an object tree

A path is a text of steps with dots between them. A dot inside parentheses does not divide steps, so
the name of a prototype may hold dots. A step is a key, or `prototype(…)` with the name of a prototype,
which leads through the table of prototypes.
-/

namespace FusionInspect.FusionPath

/-- The steps of a path, the first one still open and its characters in order, where `depth`
parentheses are open before it. -/
def splitFrom : Nat → List Char → List Char × List (List Char)
  | _, [] => ([], [])
  | depth, c :: cs =>
    if c == '.' && depth == 0 then
      let (step, later) := splitFrom 0 cs
      ([], step :: later)
    else
      let depth := if c == '(' then depth + 1 else if c == ')' then depth - 1 else depth
      let (step, later) := splitFrom depth cs
      (c :: step, later)

/-- The steps of a path, empty ones left out. -/
def split (path : String) : List String :=
  let (step, later) := splitFrom 0 path.toList
  ((step :: later).filter fun s => !s.isEmpty).map String.ofList

/-- The name in a step of the form `prototype(…)`. -/
def prototypeName? (step : String) : Option String :=
  let opening := "prototype(".toList
  let cs := step.toList
  if opening.isPrefixOf cs then
    let rest := cs.drop opening.length
    if rest.getLast? == some ')' then some (String.ofList rest.dropLast) else none
  else none

/-- The node that a step leads to. -/
def step? (b : Branch) (step : String) : Option Node :=
  match prototypeName? step with
  | some name => do
    let table ← (← b.get? Key.prototypes).branch?
    Branch.get? table name
  | none => b.get? step

/-- What the steps of a path lead to: the branch at the end, or a branch of the last step alone if
something else is there. -/
def follow? (b : Branch) : List String → Option Branch
  | [] => none
  | [step] =>
    match step? b step with
    | some (.branch found) => some found
    | some node => some [(step, node)]
    | none => none
  | step :: rest =>
    match step? b step with
    | some (.branch found) => follow? found rest
    | _ => none

end FusionInspect.FusionPath

namespace FusionInspect.ObjectTree

/-- The part of the tree at a path; without a path all of it but the table of prototypes. -/
def at? (t : ObjectTree) (path : Option String) : Except Error Branch :=
  match path.filter (· != "") with
  | none => .ok (t.root.erase Key.prototypes)
  | some path =>
    match FusionPath.follow? t.root (FusionPath.split path) with
    | some found => .ok found
    | none => .error (.pathNotFound path)

end FusionInspect.ObjectTree
