import FusionInspect.Decimal.Reading
import FusionInspect.Json.Basic

/-!
# Scalars

The leaves of object trees. Emptiness is loose: null, false, zero, the empty text and the text `0`
are empty.
-/

namespace FusionInspect

/-- A leaf value. -/
inductive Scalar where
  | null
  | bool (value : Bool)
  | number (value : Number)
  | text (value : String)
  deriving Repr, BEq

namespace Scalar

/-- Loose emptiness. -/
def isEmpty : Scalar → Bool
  | .null => true
  | .bool b => !b
  | .number (.integer n) => n == 0
  | .number (.float x) => x == 0
  | .text s => s == "" || s == "0"

/-- The text of a text. -/
def text? : Scalar → Option String
  | .text s => some s
  | _ => none

/-- The number of a number, or of a text that writes a finite one. -/
def float? : Scalar → Option Float
  | .number n => some n.toFloat
  | .text s => Decimal.float? s
  | _ => none

/-- The scalar as it is shown on its own: a text without quotes. -/
def display : Scalar → String
  | .null => "null"
  | .bool true => "true"
  | .bool false => "false"
  | .number n => n.text
  | .text s => s

/-- The scalar as a JSON value. -/
def toJson : Scalar → Json
  | .null => .null
  | .bool b => .bool b
  | .number n => .number n
  | .text s => .string s

end Scalar

end FusionInspect
