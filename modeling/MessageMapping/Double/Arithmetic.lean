import MessageMapping.Double.Rounding

/-!
# Binary64 arithmetic

Each operation computes the exact result over the integers and rounds it once. Infinities, NaN and
the signs of zeros follow IEEE 754.
-/

namespace MessageMapping

namespace Double

/-- A finite number as a multiple of `2 ^ unit`, for a unit not above its exponent. -/
def multipleOf (x : Double) (unit : Int) : Int :=
  let multiple : Int := x.significand * 2 ^ (x.exponent - unit).toNat
  if x.isNegative then -multiple else multiple

/-- The sum. An exact zero is negative only if both terms are. -/
def add (x y : Double) : Double :=
  if x.isNaN || y.isNaN then nan
  else if x.isInfinite then
    if y.isInfinite && x.isNegative != y.isNegative then nan else x
  else if y.isInfinite then y
  else
    let unit := min x.exponent y.exponent
    let sum := x.multipleOf unit + y.multipleOf unit
    if sum = 0 then zero (x.isNegative && y.isNegative)
    else ofScaled (sum < 0) sum.natAbs unit

def sub (x y : Double) : Double :=
  x.add y.neg

def mul (x y : Double) : Double :=
  let negative := x.isNegative != y.isNegative
  if x.isNaN || y.isNaN then nan
  else if x.isInfinite || y.isInfinite then
    if x.isZero || y.isZero then nan else infinity negative
  else ofScaled negative (x.significand * y.significand) (x.exponent + y.exponent)

def div (x y : Double) : Double :=
  let negative := x.isNegative != y.isNegative
  if x.isNaN || y.isNaN || (x.isInfinite && y.isInfinite) || (x.isZero && y.isZero) then nan
  else if x.isInfinite || y.isZero then infinity negative
  else if y.isInfinite then zero negative
  else
    let (num, den) := shifted x.significand y.significand (x.exponent - y.exponent)
    ofRatio negative num den

/-- The remainder of the division truncated toward zero; it has the sign of the dividend and needs
no rounding. -/
def rem (x y : Double) : Double :=
  if x.isNaN || y.isNaN || x.isInfinite || y.isZero then nan
  else if y.isInfinite then x
  else
    let unit := min x.exponent y.exponent
    ofScaled x.isNegative ((x.multipleOf unit).natAbs % (y.multipleOf unit).natAbs) unit

end Double

end MessageMapping
