import MessageMapping.Double.Shortest

/-!
# Texts of binary64 numbers

Two texts of the same digits: `jsonText` is a JSON number, with a fraction or an exponent always,
so that it reads back as a float; `plainText` is for people and never has an exponent.
-/

namespace MessageMapping

namespace Decimal

/-- The place of the first digit: `0` for units, `-1` for tenths. -/
def leading (d : Decimal) : Int :=
  (toString d.digits).length - 1 + d.exponent

/-- All digits written out around the point; an integer gets `whole` at its end. -/
def positional (d : Decimal) (whole : String) : String :=
  let digits := (toString d.digits).toList
  let point : Int := digits.length + d.exponent
  if 0 ≤ d.exponent then
    String.ofList (digits ++ List.replicate d.exponent.toNat '0') ++ whole
  else if 0 < point then
    String.ofList (digits.take point.toNat ++ '.' :: digits.drop point.toNat)
  else
    String.ofList ('0' :: '.' :: List.replicate (-point).toNat '0' ++ digits)

/-- One digit before the point, the others after it, and a signed power of ten. -/
def scientific (d : Decimal) : String :=
  let mantissa :=
    match (toString d.digits).toList with
    | first :: second :: rest => String.ofList (first :: '.' :: second :: rest)
    | digits => String.ofList digits
  let sign := if d.leading < 0 then "-" else "+"
  mantissa ++ "e" ++ sign ++ toString d.leading.natAbs

end Decimal

namespace Double

def signText (x : Double) : String :=
  if x.isNegative then "-" else ""

/-- The JSON text of a finite number: positional from `10 ^ -5` up to `10 ^ 16`, scientific
elsewhere. -/
def jsonText (x : Double) : String :=
  if x.isZero then x.signText ++ "0.0"
  else
    let decimal := x.shortest .toEven
    x.signText ++
      if -5 ≤ decimal.leading && decimal.leading < 16 then decimal.positional ".0"
      else decimal.scientific

/-- The text shown to people: all digits written out, integers without a fraction. -/
def plainText (x : Double) : String :=
  if x.isNaN then "NaN"
  else if x.isInfinite then x.signText ++ "inf"
  else if x.isZero then x.signText ++ "0"
  else x.signText ++ (x.shortest .up).positional ""

end Double

end MessageMapping
