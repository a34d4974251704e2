/-!
# Integers written in a text

An integer is an optional sign and at least one ASCII digit, nothing else. Only integers of 64 bits
are read: a text that writes a larger one is as good as no integer.
-/

namespace FusionInspect.Text

/-- The number that a run of digits writes, read on from `n`. -/
def digitsValueFrom : Nat → List Char → Nat
  | n, [] => n
  | n, c :: cs => digitsValueFrom (10 * n + (c.toNat - '0'.toNat)) cs

/-- The number that a run of digits writes. -/
def digitsValue (digits : List Char) : Nat :=
  digitsValueFrom 0 digits

/-- Bounds of the integers that are read. -/
def isSmallInteger (n : Int) : Bool :=
  -9223372036854775808 ≤ n && n ≤ 9223372036854775807

/-- The number that a text of digits only writes. -/
def digits? (cs : List Char) : Option Nat :=
  if !cs.isEmpty && cs.all Char.isDigit then some (digitsValue cs) else none

/-- The integer of 64 bits that a text writes, with an optional sign in front. -/
def integer? (text : String) : Option Int :=
  let value : Option Int := match text.toList with
    | '-' :: cs => (digits? cs).map fun n => -(n : Int)
    | '+' :: cs => (digits? cs).map fun n => (n : Int)
    | cs => (digits? cs).map fun n => (n : Int)
  value.filter isSmallInteger

end FusionInspect.Text
