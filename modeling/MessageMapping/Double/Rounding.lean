import MessageMapping.Double.Basic

/-!
# Rounding to binary64

`ofRatio` is the one place where a number is rounded: to the nearest representable one, a tie to
the even significand. Conversion from integers and every arithmetic operation give their exact
result to it.
-/

namespace MessageMapping

namespace Double

/-- The integer nearest to `num / den`, a half going to the even one. -/
def roundHalfEven (num den : Nat) : Nat :=
  let twice := 2 * (num % den)
  if twice < den || (twice == den && num / den % 2 == 0) then num / den else num / den + 1

/-- `num / den * 2 ^ shift` as a pair of numerator and denominator. -/
def shifted (num den : Nat) (shift : Int) : Nat × Nat :=
  (num * 2 ^ shift.toNat, den * 2 ^ (-shift).toNat)

/-- The exponent of the largest power of two that is at most `num / den`. -/
def floorLog2 (num den : Nat) : Int :=
  let guess : Int := num.log2 - den.log2
  let (n, d) := shifted num den (-guess)
  if d ≤ n then guess else guess - 1

/--
The number nearest to `± num / den`. The exponent leaves 53 bits for the significand, or fewer
once it reaches the least exponent `-1074`. A significand that rounds up to `2 ^ 53` carries into
the exponent bits by itself.
-/
def ofRatio (negative : Bool) (num den : Nat) : Double :=
  if num = 0 then zero negative
  else
    let exponent := max (floorLog2 num den - 52) (-1074)
    let (n, d) := shifted num den (-exponent)
    let magnitude := (exponent + 1074).toNat * 2 ^ 52 + roundHalfEven n d
    ofMagnitude negative (min infinityMagnitude magnitude)

/-- The number nearest to `± n * 2 ^ exponent`. -/
def ofScaled (negative : Bool) (n : Nat) (exponent : Int) : Double :=
  let (num, den) := shifted n 1 exponent
  ofRatio negative num den

def ofNat (n : Nat) : Double :=
  ofRatio false n 1

def ofInt (n : Int) : Double :=
  ofRatio (n < 0) n.natAbs 1

end Double

end MessageMapping
