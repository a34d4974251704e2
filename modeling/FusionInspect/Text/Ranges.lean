/-!
# Character classes as ranges of code points

A class of characters is an ascending list of closed ranges of code points. The list is ascending
and disjoint, so a search may stop at the first range that starts above the character.
-/

namespace FusionInspect.Text

/-- A class of characters: closed ranges of code points, ascending and disjoint. -/
abbrev Ranges := List (Nat × Nat)

/-- Whether a code point lies in one of the ranges. The search stops at the first range above it. -/
def Ranges.contains : Ranges → Nat → Bool
  | [], _ => false
  | (low, high) :: rest, n =>
    if n < low then false else if n ≤ high then true else Ranges.contains rest n

end FusionInspect.Text
