/-!
# Binary64 numbers

A `Double` is its 64 bits: a sign bit, eleven exponent bits and fifty-two fraction bits. Classes,
equality and order are read off the bits as natural numbers, so they can be reasoned about without
a floating-point unit. A finite number is `± significand * 2 ^ exponent` with `significand < 2 ^
53`.
-/

namespace MessageMapping

-- the power of core, also where an algebra library brings its own
attribute [default_instance 20000, scoped instance (20000)] instPowNat

/-- A binary64 number, kept as its bit pattern. Equality of bit patterns tells `0` from `-0`. -/
structure Double where
  bits : UInt64
  deriving DecidableEq

namespace Double

/-- The bits below the sign, which grow with the absolute value. -/
def magnitude (x : Double) : Nat :=
  x.bits.toNat % 2 ^ 63

/-- The sign bit; `-0` and some NaNs carry it too. -/
def isNegative (x : Double) : Bool :=
  decide (2 ^ 63 ≤ x.bits.toNat)

/-- The magnitude of the infinities; those above it are NaNs. -/
def infinityMagnitude : Nat :=
  2047 * 2 ^ 52

/-- The number with this sign and these lower bits. -/
def ofMagnitude (negative : Bool) (magnitude : Nat) : Double :=
  ⟨UInt64.ofNat (if negative then 2 ^ 63 + magnitude else magnitude)⟩

def zero (negative : Bool) : Double :=
  ofMagnitude negative 0

def infinity (negative : Bool) : Double :=
  ofMagnitude negative infinityMagnitude

def nan : Double :=
  ofMagnitude false (infinityMagnitude + 2 ^ 51)

def isNaN (x : Double) : Bool :=
  decide (infinityMagnitude < x.magnitude)

def isInfinite (x : Double) : Bool :=
  decide (x.magnitude = infinityMagnitude)

def isFinite (x : Double) : Bool :=
  decide (x.magnitude < infinityMagnitude)

def isZero (x : Double) : Bool :=
  decide (x.magnitude = 0)

/-- The number with the other sign. -/
def neg (x : Double) : Double :=
  ofMagnitude (!x.isNegative) x.magnitude

/-- The integer factor of a finite number; subnormals lack the leading bit. -/
def significand (x : Double) : Nat :=
  if x.magnitude < 2 ^ 52 then x.magnitude else 2 ^ 52 + x.magnitude % 2 ^ 52

/-- The power of two that scales the significand. -/
def exponent (x : Double) : Int :=
  (max (x.magnitude / 2 ^ 52) 1 : Nat) - 1075

/-- A key that sorts all numbers but NaN; both zeros have the key `0`. -/
def orderKey (x : Double) : Int :=
  if x.isNegative then -x.magnitude else x.magnitude

/-- The order of two numbers, which is undefined as soon as one is NaN. -/
def compare? (x y : Double) : Option Ordering :=
  if x.isNaN || y.isNaN then none else some (compare x.orderKey y.orderKey)

end Double

end MessageMapping
