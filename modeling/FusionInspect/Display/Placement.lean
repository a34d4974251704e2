import FusionInspect.Display.Position

/-!
# Placing entries

Entries are put in order by their positions. Anchored entries come first into place: those at the
start, higher priority first; those in the middle, by their number; those at the end, lower priority
first. Every other entry stands beside the sibling it refers to, and carries along those that refer to
it. An entry that refers to itself or to no sibling counts as a middle one.

Ties keep the given order. Entries whose references lead around a cycle are reached by no anchor; they
come last, in the given order, each with those that refer to it.

Placing an entry marks it first, and a marked entry is never placed again. So the number of entries
bounds how deep references are followed.
-/

namespace FusionInspect

/-- A key that orders floating-point numbers, a negative zero before a zero. -/
def floatOrder (x : Float) : Int :=
  let bits := x.toBits.toNat
  let signBit : Nat := 1 <<< 63
  if bits < signBit then bits else -((bits : Int) - signBit) - 1

namespace Placement

/-- An entry to be placed: its number in the given order, its key, and its position. -/
structure Item where
  index : Nat
  key : String
  position : Position
  deriving Repr

/-- A position whose reference, if it has one, is a sibling. -/
def anchored (keys : List String) (key : String) : Position → Position
  | .before r p => if r != key && keys.contains r then .before r p else .middle 0
  | .after r p => if r != key && keys.contains r then .after r p else .middle 0
  | p => p

/-- The items of some entries, numbered from the given number. -/
def itemsFrom (keys : List String) (i : Nat) : List (String × Node) → List Item
  | [] => []
  | (key, node) :: rest =>
    ⟨i, key, anchored keys key (Position.ofEntry key node)⟩ :: itemsFrom keys (i + 1) rest

/-- The items of some entries. -/
def items (entries : List (String × Node)) : List Item :=
  itemsFrom (entries.map Prod.fst) 0 entries

/-- A rank at the start, where a higher priority comes first. -/
def startRank : Position → Option Int
  | .start p => some (-p)
  | _ => none

/-- A rank in the middle, by the number. -/
def middleRank : Position → Option Int
  | .middle x => some (floatOrder x)
  | _ => none

/-- A rank at the end, where a lower priority comes first. -/
def finishRank : Position → Option Int
  | .finish p => some p
  | _ => none

/-- A rank before a key, where a higher priority comes first. -/
def beforeRank (key : String) : Position → Option Int
  | .before r p => if r == key then some (-p) else none
  | _ => none

/-- A rank after a key, where a higher priority comes first. -/
def afterRank (key : String) : Position → Option Int
  | .after r p => if r == key then some (-p) else none
  | _ => none

/-- The items that have a rank, by ascending rank, ties in the given order. -/
def ranked (rank : Position → Option Int) (is : List Item) : List Nat :=
  let ranks := is.filterMap fun i => (rank i.position).map (·, i.index)
  (Order.sort (fun a b => decide (a.1 ≤ b.1)) ranks).map Prod.snd

/-- What has been placed: the marked indices, and the placed ones in order. -/
structure Placed where
  marked : List Nat
  order : List Nat
  deriving Repr

/-- Places an item, with those that stand beside it, unless it is marked. -/
def place (is : List Item) : Nat → Placed → Nat → Placed
  | 0, s, _ => s
  | fuel + 1, s, i =>
    if s.marked.contains i then s
    else match is[i]? with
      | none => s
      | some item =>
        let s := (ranked (beforeRank item.key) is).foldl (place is fuel)
          { s with marked := i :: s.marked }
        (ranked (afterRank item.key) is).foldl (place is fuel) { s with order := s.order ++ [i] }

/-- The indices of the items in their places. -/
def order (is : List Item) : List Nat :=
  let roots := ranked startRank is ++ ranked middleRank is ++ ranked finishRank is
    ++ List.range is.length
  (roots.foldl (place is is.length) ⟨[], []⟩).order

/-- The entries in their places. -/
def arrange (entries : List (String × Node)) : List (String × Node) :=
  (order (items entries)).filterMap fun i => entries[i]?

end Placement

end FusionInspect
