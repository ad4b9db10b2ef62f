import MessageMapping.Double.Arithmetic
import MessageMapping.Value.Comparison

/-!
# Arithmetic on values

Two numbers meet in one subtype: binary64 if one is a float or an unsigned integer meets a
negative one, unsigned if one is unsigned, and signed otherwise. Integer results are exact; one
that no subtype of the pair holds is computed in binary64 instead. Strings can only be added,
which joins them.
-/

namespace MessageMapping

/-- Two numbers brought to one subtype. -/
inductive Operands
  | ints (a b : Int64)
  | uints (a b : UInt64)
  | floats (a b : Double)

namespace Operands

def ofPair : Numeric → Numeric → Operands
  | .int a, .int b => ints a b
  | .uint a, .uint b => uints a b
  | .int a, .uint b =>
    if 0 ≤ a.toInt then uints (UInt64.ofNat a.toInt.toNat) b
    else floats (Double.ofInt a.toInt) (Double.ofNat b.toNat)
  | .uint a, .int b =>
    if 0 ≤ b.toInt then uints a (UInt64.ofNat b.toInt.toNat)
    else floats (Double.ofNat a.toNat) (Double.ofInt b.toInt)
  | x, y => floats x.toDouble y.toDouble

/-- The operands as binary64 numbers. -/
def toDoubles : Operands → Double × Double
  | ints a b => (Double.ofInt a.toInt, Double.ofInt b.toInt)
  | uints a b => (Double.ofNat a.toNat, Double.ofNat b.toNat)
  | floats a b => (a, b)

/-- Whether the right operand is zero. -/
def rightIsZero : Operands → Bool
  | ints _ b => b == 0
  | uints _ b => b == 0
  | floats _ b => b.isZero

end Operands

namespace Operator

/-- The exact result over the integers, division truncating toward zero. -/
def onInts (op : Operator) (a b : Int) : Option Int :=
  match op with
  | add => some (a + b)
  | sub => some (a - b)
  | mul => some (a * b)
  | div => some (a.tdiv b)
  | mod => some (a.tmod b)
  | _ => none

/-- The result in binary64; operators that are no arithmetic give NaN. -/
def onDoubles (op : Operator) (a b : Double) : Double :=
  match op with
  | add => a.add b
  | sub => a.sub b
  | mul => a.mul b
  | div => a.div b
  | mod => a.rem b
  | _ => .nan

end Operator

namespace Numeric

def signed? (n : Int) : Option Numeric :=
  if -2 ^ 63 ≤ n ∧ n < 2 ^ 63 then some (int (Int64.ofInt n)) else none

def unsigned? (n : Int) : Option Numeric :=
  if 0 ≤ n ∧ n < 2 ^ 64 then some (uint (UInt64.ofNat n.toNat)) else none

/--
The exact result, if the subtype of the operands has it. A remainder comes with its quotient, so
both have to fit. A negative result of unsigned operands is signed.
-/
def integral? (op : Operator) : Operands → Option Numeric
  | .ints a b => do
    if op = .mod then
      let _ ← signed? (a.toInt.tdiv b.toInt)
    signed? (← op.onInts a.toInt b.toInt)
  | .uints a b => do
    let result ← op.onInts a.toNat b.toNat
    (unsigned? result).or (signed? result)
  | .floats .. => none

/-- Arithmetic on two numbers. -/
def arithmetic (op : Operator) (x y : Numeric) : Except EvalError Numeric :=
  let operands := Operands.ofPair x y
  if (op = .div ∨ op = .mod) ∧ operands.rightIsZero = true then .error .divideByZero
  else
    let doubles := operands.toDoubles
    .ok ((integral? op operands).getD (float (op.onDoubles doubles.1 doubles.2)))

end Numeric

namespace Value

/-- Arithmetic on two values. -/
def arithmetic (op : Operator) (left right : Value) : Except EvalError Value :=
  match left, right with
  | number x, number y => (Numeric.arithmetic op x y).map number
  | string s, string t => if op = .add then .ok (string (s ++ t)) else .error (mismatch left right)
  | _, _ => .error (mismatch left right)

end Value

/-- Applies an operator to two values. -/
def Operator.apply (op : Operator) (left right : Value) : Except EvalError Value :=
  match op with
  | .eq => .ok (.bool (left.equals right))
  | .ne => .ok (.bool (!left.equals right))
  | .gt | .ge | .lt | .le => (Value.compare op left right).map .bool
  | _ => Value.arithmetic op left right

end MessageMapping
