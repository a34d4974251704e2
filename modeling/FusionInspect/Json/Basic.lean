import FusionInspect.Decimal.Layout

/-!
# JSON values

Values of the data format that object trees are written in. Objects are lists of entries because the
order of keys is content. Integers and other numbers are kept apart: `1` and `1.0` are different
values, and an integer is never rounded.
-/

namespace FusionInspect

/-- A number: an exact integer, or a binary floating-point number. -/
inductive Number where
  | integer (value : Int)
  | float (value : Float)
  deriving Repr, BEq

/-- The nearest floating-point number. -/
def Number.toFloat : Number → Float
  | .integer (.ofNat n) => Float.ofNat n
  | .integer (.negSucc n) => -(Float.ofNat (n + 1))
  | .float x => x

/-- Numbers are positional where the exponent of the first digit is from -5 to 15; beyond that the
exponent is written with its sign. -/
def Number.layout : Decimal.Layout where
  least := -5
  greatest := 15
  negativeMark := "e-"
  positiveMark := "e+"

/-- The digits of an integer, with a sign in front of a negative one. -/
def integerText : Int → String
  | .ofNat n => String.ofList (Nat.toDigits 10 n)
  | .negSucc n => String.ofList ('-' :: Nat.toDigits 10 (n + 1))

/-- The written form of a number. -/
def Number.text : Number → String
  | .integer n => integerText n
  | .float x => Number.layout.write x

/-- A JSON value. -/
inductive Json where
  | null
  | bool (value : Bool)
  | number (value : Number)
  | string (value : String)
  | array (items : List Json)
  | object (entries : List (String × Json))
  deriving Repr, Inhabited

end FusionInspect
