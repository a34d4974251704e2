import FusionInspect.Text.Blank
import FusionInspect.Text.Integer

/-!
# Decimal numbers written in a text

A decimal number is an optional sign, digits with an optional point among or beside them (at least
one digit in all), and an optional exponent. The number nearest to the written one is taken, a tie
going to the even neighbour; a number too large for a finite one is refused.
-/

namespace FusionInspect.Decimal

open FusionInspect.Text (digits? digitsValue trim)

/-- A number written as `significand · 10 ^ exponent`. -/
structure Scientific where
  significand : Nat
  exponent : Int
  deriving Repr, DecidableEq

/-- The nearest number, or nothing if that is infinite. Exponents far out of range are settled by
the number of digits alone, so that no large power is computed. -/
def Scientific.nearest? (s : Scientific) : Option Float :=
  let size : Int := (Nat.toDigits 10 s.significand).length + s.exponent
  if s.significand == 0 || size < -400 then some 0
  else if size > 400 then none
  else
    let x := Float.ofScientific s.significand (decide (s.exponent < 0)) s.exponent.natAbs
    if x.isInf then none else some x

/-- The exponent written after its mark: an optional sign and at least one digit. -/
def exponent? : List Char → Option Int
  | '-' :: cs => (digits? cs).map fun n => -(n : Int)
  | '+' :: cs => (digits? cs).map fun n => (n : Int)
  | cs => (digits? cs).map fun n => (n : Int)

/-- The digits and the exponent of a number without sign. -/
def unsigned? (cs : List Char) : Option Scientific :=
  let whole := cs.takeWhile Char.isDigit
  let (part, rest) := match cs.dropWhile Char.isDigit with
    | '.' :: more => (more.takeWhile Char.isDigit, more.dropWhile Char.isDigit)
    | more => ([], more)
  if whole.isEmpty && part.isEmpty then none
  else
    let written (e : Int) : Scientific := ⟨digitsValue (whole ++ part), e - part.length⟩
    match rest with
    | [] => some (written 0)
    | c :: more => if c == 'e' || c == 'E' then (exponent? more).map written else none

/-- The finite number that a text writes, blanks at its ends aside. -/
def float? (text : String) : Option Float :=
  match trim text.toList with
  | '-' :: cs => (unsigned? cs >>= Scientific.nearest?).map fun x => -x
  | '+' :: cs => unsigned? cs >>= Scientific.nearest?
  | cs => unsigned? cs >>= Scientific.nearest?

end FusionInspect.Decimal
