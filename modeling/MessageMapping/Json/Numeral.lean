import MessageMapping.Json.Basic
import MessageMapping.Double.Arithmetic

/-!
# JSON numerals

The digits of a numeral are read into a significand of 64 bits and a power of ten. An integer that
fits 64 bits is exact. Every other numeral is a float: the significand and the power of ten are
each rounded to binary64 and then multiplied or divided. Whole digits beyond 64 bits only raise
the exponent. Fraction digits are gathered while they fit; the first that does not fit ends the
gathering.
-/

namespace MessageMapping

/-- How far a numeral has been read. -/
inductive Numeral.Phase
  /-- After the minus sign. -/
  | sign
  /-- After a zero that no digit may follow. -/
  | zero
  /-- Inside the whole digits, of which `dropped` did not fit. -/
  | whole (significand dropped : Nat)
  /-- After the point, before its first digit. -/
  | point (significand : Nat) (exponent : Int)
  /-- Inside the fraction digits; once `full`, they are only skipped. -/
  | fraction (significand : Nat) (exponent : Int) (full : Bool)
  /-- After the exponent mark. -/
  | mark (significand : Nat) (exponent : Int)
  /-- After the sign of the power. -/
  | powerSign (significand : Nat) (exponent : Int) (below : Bool)
  /-- Inside the digits of the power. -/
  | power (significand : Nat) (exponent : Int) (below : Bool) (digits : Nat)

/-- A numeral that is being read. -/
structure Numeral where
  negative : Bool
  phase : Numeral.Phase

namespace Numeral

/-- The digit that a byte stands for. -/
def digit? (byte : UInt8) : Option Nat :=
  if 48 ≤ byte && byte ≤ 57 then some (byte.toNat - 48) else none

/-- The numeral that starts with this byte. -/
def start? (byte : UInt8) : Option Numeral :=
  if byte = 45 then some ⟨true, .sign⟩
  else match digit? byte with
    | some 0 => some ⟨false, .zero⟩
    | some d => some ⟨false, .whole d 0⟩
    | none => none

/-- What one more byte does to a numeral. -/
inductive Step
  /-- It belongs to the numeral. -/
  | more (phase : Phase)
  /-- It does not, and the numeral is complete. -/
  | complete
  /-- It does not, and the numeral is incomplete. -/
  | malformed

/-- After the whole digits a point, an exponent mark or the end may follow. -/
def afterWhole (significand : Nat) (exponent : Int) (byte : UInt8) : Step :=
  if byte = 46 then .more (.point significand exponent)
  else if byte = 101 || byte = 69 then .more (.mark significand exponent)
  else .complete

/-- A fraction digit is gathered if the significand still fits 64 bits with it. -/
def gather (significand : Nat) (exponent : Int) (digit : Nat) : Phase :=
  let longer := significand * 10 + digit
  if longer < 2 ^ 64 then .fraction longer (exponent - 1) false
  else .fraction significand exponent true

def Phase.step (byte : UInt8) : Phase → Step
  | .sign => match digit? byte with
    | some 0 => .more .zero
    | some d => .more (.whole d 0)
    | none => .malformed
  | .zero => match digit? byte with
    | some _ => .malformed
    | none => afterWhole 0 0 byte
  | .whole significand dropped => match digit? byte with
    | some d =>
      if dropped = 0 && significand * 10 + d < 2 ^ 64 then .more (.whole (significand * 10 + d) 0)
      else .more (.whole significand (dropped + 1))
    | none => afterWhole significand dropped byte
  | .point significand exponent => match digit? byte with
    | some d => .more (gather significand exponent d)
    | none => .malformed
  | .fraction significand exponent full => match digit? byte with
    | some d =>
      if full then .more (.fraction significand exponent true)
      else .more (gather significand exponent d)
    | none => if byte = 101 || byte = 69 then .more (.mark significand exponent) else .complete
  | .mark significand exponent => match digit? byte with
    | some d => .more (.power significand exponent false d)
    | none =>
      if byte = 43 then .more (.powerSign significand exponent false)
      else if byte = 45 then .more (.powerSign significand exponent true)
      else .malformed
  | .powerSign significand exponent below => match digit? byte with
    | some d => .more (.power significand exponent below d)
    | none => .malformed
  | .power significand exponent below digits => match digit? byte with
    | some d => .more (.power significand exponent below (digits * 10 + d))
    | none => .complete

/-- A power of ten that binary64 can hold, rounded. -/
def powerOfTen (exponent : Nat) : Double :=
  Double.ofNat (10 ^ exponent)

/--
`significand * 10 ^ exponent` with one rounding for each of the factors and one for the result. A
quotient by more than `10 ^ 308` takes two divisions, and by more than `10 ^ 616` it is zero. A
result beyond the largest finite number is none.
-/
def magnitude (significand : Nat) (exponent : Int) : Double :=
  let value := Double.ofNat significand
  if value.isZero then value
  else if 308 < exponent then Double.infinity false
  else if 0 ≤ exponent then value.mul (powerOfTen exponent.toNat)
  else if -308 ≤ exponent then value.div (powerOfTen (-exponent).toNat)
  else if -616 ≤ exponent then
    (value.div (powerOfTen 308)).div (powerOfTen (-exponent - 308).toNat)
  else Double.zero false

/-- The float with this sign and these digits. -/
def float (negative : Bool) (significand : Nat) (exponent : Int) : Except Json.Fault Number :=
  let size := magnitude significand exponent
  let value := if negative then size.neg else size
  if h : value.isFinite = true then .ok (.float value h) else .error .malformed

/-- The exact integer if it fits 64 bits, and a float otherwise; the negative zero is a float. -/
def integer (negative : Bool) (significand : Nat) : Except Json.Fault Number :=
  let value : Int := if negative then -significand else significand
  if negative && significand = 0 then float true 0 0
  else if h : -2 ^ 63 ≤ value ∧ value < 2 ^ 64 then .ok (.int value h.1 h.2)
  else float negative significand 0

/-- The number that a numeral stands for when the text goes no further. -/
def value (n : Numeral) : Except Json.Fault Number :=
  match n.phase with
  | .zero => integer n.negative 0
  | .whole significand 0 => integer n.negative significand
  | .whole significand dropped => float n.negative significand dropped
  | .fraction significand exponent _ => float n.negative significand exponent
  | .power significand exponent below digits =>
    float n.negative significand (if below then exponent - digits else exponent + digits)
  | .sign | .point .. | .mark .. | .powerSign .. => .error .ended

end Numeral

end MessageMapping
