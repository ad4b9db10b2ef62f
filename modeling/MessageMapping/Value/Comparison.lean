import MessageMapping.EvalError
import MessageMapping.Operator

/-!
# Equality and order of values

`equals` compares numbers by value, whatever their subtypes, and containers deeply; the order of
the members of an object does not count. `same` tells subtypes apart. Numbers are ordered among
themselves and strings among themselves: two integers exactly, a pair with a float as binary64
numbers, strings by code points.
-/

namespace MessageMapping

/-- The order of two numbers, which is undefined as soon as one is NaN. -/
def Numeric.compare? (x y : Numeric) : Option Ordering :=
  match x.integer?, y.integer? with
  | some a, some b => some (compare a b)
  | _, _ => x.toDouble.compare? y.toDouble

/-- Whether two numbers have one subtype and one value. -/
def Numeric.same : Numeric → Numeric → Bool
  | int a, int b => a == b
  | uint a, uint b => a == b
  | float x, float y => x.compare? y == some .eq
  | _, _ => false

namespace Value

mutual

/-- Equality by value. -/
def equals : Value → Value → Bool
  | null, null => true
  | bool a, bool b => a == b
  | number x, number y => x.compare? y == some .eq
  | string s, string t => s == t
  | array xs, array ys => equalsItems xs ys
  | object xs, object ys => xs.length == ys.length && equalsMembers xs ys
  | absent, absent => true
  | delete, delete => true
  | _, _ => false

def equalsItems : List Value → List Value → Bool
  | [], [] => true
  | x :: xs, y :: ys => x.equals y && equalsItems xs ys
  | _, _ => false

/-- Whether each member has an equal one under its key. -/
def equalsMembers : List (String × Value) → List (String × Value) → Bool
  | [], _ => true
  | (key, x) :: xs, ys =>
    (match Entries.get? key ys with
      | some y => x.equals y
      | none => false) && equalsMembers xs ys

end

mutual

/-- Equality of subtype and value. -/
def same : Value → Value → Bool
  | null, null => true
  | bool a, bool b => a == b
  | number x, number y => x.same y
  | string s, string t => s == t
  | array xs, array ys => sameItems xs ys
  | object xs, object ys => xs.length == ys.length && sameMembers xs ys
  | absent, absent => true
  | delete, delete => true
  | _, _ => false

def sameItems : List Value → List Value → Bool
  | [], [] => true
  | x :: xs, y :: ys => x.same y && sameItems xs ys
  | _, _ => false

def sameMembers : List (String × Value) → List (String × Value) → Bool
  | [], _ => true
  | (key, x) :: xs, ys =>
    (match Entries.get? key ys with
      | some y => x.same y
      | none => false) && sameMembers xs ys

end

/-- The error for operands that do not go together; the left one decides what was expected. -/
def mismatch (left right : Value) : EvalError :=
  match left with
  | string _ => .mismatch .string right
  | number _ => .mismatch .number right
  | _ => .mismatch .number left

/-- Compares two numbers or two strings; nothing holds of NaN. -/
def compare (op : Operator) : Value → Value → Except EvalError Bool
  | string s, string t => .ok (op.accepts (Ord.compare s t))
  | number x, number y => .ok ((x.compare? y).any op.accepts)
  | left, right => .error (mismatch left right)

/-- The boolean that a condition or a logical operator needs. -/
def expectBool (v : Value) : Except EvalError Bool :=
  match v with
  | bool b => .ok b
  | _ => .error (.mismatch .bool v)

end Value

end MessageMapping
