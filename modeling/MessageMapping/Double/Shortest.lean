import MessageMapping.Double.Rounding

/-!
# Shortest decimal digits

The decimal digits of a binary64 number are the fewest that still read back as that number. The
reals that round to a number form an interval around it, closed exactly if its significand is
even. `shortest` looks for the coarsest decimal grid that has a point in the interval, and of two
such points takes the nearer.
-/

namespace MessageMapping

/-- `digits * 10 ^ exponent`. -/
structure Decimal where
  digits : Nat
  exponent : Int
  deriving DecidableEq

/-- A positive number and the ends of the interval that rounds to it, over one denominator. -/
structure Neighbourhood where
  lower : Nat
  value : Nat
  upper : Nat
  den : Nat
  closed : Bool

/-- Which of two equally near grid points is taken. -/
inductive Tie
  | toEven
  | up

namespace Neighbourhood

/--
The interval of a finite number, in units of a quarter of its last place. Below a power of two the
next number is only half as far away, unless the power is the least normal one.
-/
def ofDouble (x : Double) : Neighbourhood :=
  let (unit, den) := Double.shifted 1 1 (x.exponent - 2)
  let gap := if x.significand = 2 ^ 52 && 2 ^ 53 ≤ x.magnitude then 1 else 2
  { lower := (4 * x.significand - gap) * unit
    value := 4 * x.significand * unit
    upper := (4 * x.significand + 2) * unit
    den
    closed := x.significand % 2 == 0 }

/-- The same interval divided by `10 ^ exponent`. -/
def scale (i : Neighbourhood) (exponent : Int) : Neighbourhood :=
  let up := 10 ^ (-exponent).toNat
  { i with
    lower := i.lower * up
    value := i.value * up
    upper := i.upper * up
    den := i.den * 10 ^ exponent.toNat }

/-- Whether a positive integer lies in the interval. -/
def contains (i : Neighbourhood) (n : Nat) : Bool :=
  n != 0 &&
    if i.closed then i.lower ≤ n * i.den && n * i.den ≤ i.upper
    else i.lower < n * i.den && n * i.den < i.upper

/-- The integer in the interval that is nearest to the value, if there is one. -/
def nearest? (i : Neighbourhood) (tie : Tie) : Option Nat :=
  let below := i.value / i.den
  let twice := 2 * (i.value % i.den)
  let belowNearer := twice < i.den ||
    (twice == i.den && match tie with
      | .toEven => below % 2 == 0
      | .up => false)
  match i.contains below, i.contains (below + 1) with
  | true, true => some (if belowNearer then below else below + 1)
  | true, false => some below
  | false, true => some (below + 1)
  | false, false => none

/-- Tries the grids from `10 ^ exponent` down, one power of ten at a time; the last one is not
refused. -/
def search (i : Neighbourhood) (tie : Tie) : Nat → Int → Decimal
  | 0, exponent => ⟨(i.scale exponent).value / (i.scale exponent).den, exponent⟩
  | finer + 1, exponent =>
    match (i.scale exponent).nearest? tie with
    | some digits => ⟨digits, exponent⟩
    | none => search i tie finer (exponent - 1)

end Neighbourhood

/--
The shortest decimal form of a finite number other than zero. The first grid tried is coarser than
the number, and twenty grids further the points are closer together than binary64 numbers are.
-/
def Double.shortest (x : Double) (tie : Tie) : Decimal :=
  let log2 : Int := x.significand.log2 + x.exponent
  (Neighbourhood.ofDouble x).search tie 24 (log2 * 30103 / 100000 + 3)

end MessageMapping
