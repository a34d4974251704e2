import FusionInspect.Text.Blank
import FusionInspect.Text.Integer
import FusionInspect.Tree.Node

/-!
# Positions of entries

An entry of a mapping may hint at its place among its siblings: at the start, at the end, before or
after a sibling, or by a number. Without a hint a numeric key counts as a number, and any other entry
stands in the middle, at zero.
-/

namespace FusionInspect

/-- Where an entry wants to stand. -/
inductive Position where
  | start (priority : Int)
  | middle (value : Float)
  | finish (priority : Int)
  | before (reference : String) (priority : Int)
  | after (reference : String) (priority : Int)
  deriving Repr

namespace Position

/-- Key of the hint. -/
def hintKey : String := "@position"

/-- The priority behind a hint, zero unless it is an integer. -/
def priority : List String → Int
  | [] => 0
  | word :: _ => (Text.integer? word).getD 0

/-- The position that the words of a hint give. -/
def ofWords : List String → Position
  | [] => .middle 0
  | word :: rest =>
    if word == "start" && rest.length ≤ 1 then .start (priority rest)
    else if word == "end" && rest.length ≤ 1 then .finish (priority rest)
    else match rest with
      | [] => .middle 0
      | reference :: more =>
        if word == "before" && more.length ≤ 1 then .before reference (priority more)
        else if word == "after" && more.length ≤ 1 then .after reference (priority more)
        else .middle 0

/-- The position that a hint gives: a number, or words. -/
def ofHint (hint : Scalar) : Position :=
  match hint.float? with
  | some x => .middle x
  | none => ofWords (Text.words (hint.text?.getD ""))

/-- The hint of an entry: a scalar under the hint key of a branch. -/
def hint? : Node → Option Scalar
  | .branch b => (Branch.get? b hintKey).bind Node.scalar?
  | _ => none

/-- The position of an entry by its hint, or by its key. -/
def ofEntry (key : String) (node : Node) : Position :=
  match hint? node with
  | some hint => ofHint hint
  | none => .middle (match Text.integer? key with
    | some n => (Number.integer n).toFloat
    | none => 0)

end Position

end FusionInspect
