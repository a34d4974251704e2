import FusionInspect.Decimal.Shortest

/-!
# Written form of a number

A layout fixes how the shortest digits of a number are set: which exponents are written positionally
and how an exponent is marked. Positional numbers always show a point with a digit on each side.
-/

namespace FusionInspect.Decimal

/-- How the digits of a number are set. -/
structure Layout where
  /-- The least exponent of the first digit that is written positionally. -/
  least : Int
  /-- The greatest exponent of the first digit that is written positionally. -/
  greatest : Int
  /-- Text between the digits and a negative exponent's magnitude. -/
  negativeMark : String
  /-- Text between the digits and a positive exponent. -/
  positiveMark : String
  deriving Repr, DecidableEq

/-- Digits with a point at the place that the exponent gives. -/
def positional (d : Digits) : List Char :=
  if d.exponent < 0 then
    '0' :: '.' :: List.replicate (d.exponent.natAbs - 1) '0' ++ d.digits
  else
    let count := d.exponent.natAbs + 1
    let whole := d.digits.take count ++ List.replicate (count - d.digits.length) '0'
    let part := d.digits.drop count
    whole ++ '.' :: (if part.isEmpty then ['0'] else part)

/-- Digits with a point after the first and an exponent. -/
def Layout.scientific (layout : Layout) (d : Digits) : List Char :=
  let lead := match d.digits with
    | [] => []
    | [c] => [c]
    | c :: rest => c :: '.' :: rest
  let mark := if d.exponent < 0 then layout.negativeMark else layout.positiveMark
  lead ++ mark.toList ++ Nat.toDigits 10 d.exponent.natAbs

/-- The written form of a finite number. -/
def Layout.write (layout : Layout) (x : Float) : String :=
  let sign := if x.toBits.toNat / (1 <<< 63) == 1 then ['-'] else []
  let body :=
    if x.toBits.toNat % (1 <<< 63) == 0 then ['0', '.', '0']
    else
      let d := shortest x
      if layout.least ≤ d.exponent && d.exponent ≤ layout.greatest then positional d
      else layout.scientific d
  String.ofList (sign ++ body)

end FusionInspect.Decimal
