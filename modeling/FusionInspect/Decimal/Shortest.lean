/-!
# The shortest decimal that reads back

A finite number is written with the fewest decimal digits that read back as it. The number is
`m · 2 ^ q`; the decimals that read back as it form an interval around it, which holds its ends
exactly when `m` is even. For one digit, two digits and so on, the two neighbours of the number on
that decimal grid are tested; the first grid with a hit wins, and of two hits the nearer. If both are
equally near, the one with the even last digit is taken.

Everything is counted in quarters of the last binary place, so the ends of the interval are whole
numbers, and compared as fractions of natural numbers.
-/

namespace FusionInspect.Decimal

/-- A decimal number `d₁.d₂d₃… · 10 ^ exponent`, by its digits and the exponent of the first. -/
structure Digits where
  digits : List Char
  exponent : Int
  deriving Repr, DecidableEq

/-- A positive binary number `m · 2 ^ q`. The flag says that the number below it is only half as far
away as the one above it. -/
structure Binary where
  m : Nat
  q : Int
  narrow : Bool
  deriving Repr, DecidableEq

/-- The magnitude of a finite number that is not zero. -/
def Binary.ofFloat (x : Float) : Binary :=
  let bits : Nat := x.toBits.toNat % (1 <<< 63)
  let field : Nat := bits / (1 <<< 52)
  let fraction : Nat := bits % (1 <<< 52)
  if field == 0 then ⟨fraction, -1074, false⟩
  else ⟨fraction + 1 <<< 52, (field : Int) - 1075, fraction == 0 && field > 1⟩

/-- A closed or open interval of fractions with one denominator, and the value it is about. -/
structure Window where
  low : Nat
  value : Nat
  high : Nat
  den : Nat
  closed : Bool
  deriving Repr, DecidableEq

/-- The decimals that read back as the number. -/
def Binary.window (b : Binary) : Window :=
  let up := if b.q ≥ 2 then 1 <<< (b.q - 2).toNat else 1
  let den := if b.q ≥ 2 then 1 else 1 <<< (2 - b.q).toNat
  { low := (4 * b.m - if b.narrow then 1 else 2) * up
    value := 4 * b.m * up
    high := (4 * b.m + 2) * up
    den
    closed := b.m % 2 == 0 }

/-- Whether the fraction `num / den` lies in the window. -/
def Window.holds (w : Window) (num den : Nat) : Bool :=
  if w.closed then w.low * den ≤ num * w.den && num * w.den ≤ w.high * den
  else w.low * den < num * w.den && num * w.den < w.high * den

/-- How often a fraction below one can be multiplied by ten until it is one or more. -/
def leadingZeros : Nat → Nat → Nat → Nat
  | 0, _, _ => 0
  | fuel + 1, num, den => if den ≤ num then 0 else leadingZeros fuel (10 * num) den + 1

/-- The decimal exponent of the window's value: that of its first digit. -/
def Window.exponent (w : Window) : Int :=
  if w.den ≤ w.value then (Nat.toDigits 10 (w.value / w.den)).length - 1
  else -(leadingZeros 400 w.value w.den : Int)

/-- The neighbour of the value on the grid `10 ^ unit` that lies in the window. Of two it is the nearer
one, and a tie goes to the even one. -/
def Window.neighbour? (w : Window) (unit : Int) : Option Nat :=
  let num := if unit < 0 then Nat.pow 10 unit.natAbs else 1
  let den := if unit < 0 then 1 else Nat.pow 10 unit.natAbs
  let below := w.value * num / (w.den * den)
  let isIn (n : Nat) := w.holds (n * den) num
  let middle := (2 * below + 1) * (w.den * den)
  let above := middle < 2 * (w.value * num) || (middle == 2 * (w.value * num) && below % 2 == 1)
  if isIn below && isIn (below + 1) then some (if above then below + 1 else below)
  else if isIn below then some below
  else if isIn (below + 1) then some (below + 1)
  else none

/-- The first grid with a hit, from `count` digits on. -/
def Window.firstHit (w : Window) (exponent : Int) : Nat → Nat → Nat × Int
  | 0, _ => (0, 0)
  | fuel + 1, count =>
    let unit := exponent + 1 - count
    match w.neighbour? unit with
    | some n => (n, unit)
    | none => w.firstHit exponent fuel (count + 1)

/-- The digits of a number without the zeros at its end. -/
def trimmedDigits (n : Nat) : List Char :=
  ((Nat.toDigits 10 n).reverse.dropWhile (· == '0')).reverse

/-- The shortest digits of a finite number that is not zero, its sign aside. -/
def shortest (x : Float) : Digits :=
  let w := (Binary.ofFloat x).window
  let (n, unit) := w.firstHit w.exponent 17 1
  ⟨trimmedDigits n, unit + (Nat.toDigits 10 n).length - 1⟩

end FusionInspect.Decimal
