import MessageMapping.Double.Rounding
import MessageMapping.Entries
import MessageMapping.Path

/-!
# Values

What expressions consume and produce. A number keeps the subtype it was made with. Two values,
`absent` and `delete`, are no data but instructions: assign nothing, and remove the target.
-/

namespace MessageMapping

/-- A number with its subtype. -/
inductive Numeric
  | int (value : Int64)
  | uint (value : UInt64)
  | float (value : Double)
  deriving DecidableEq

namespace Numeric

/-- The mathematical value of an integer of either subtype. -/
def integer? : Numeric → Option Int
  | int n => some n.toInt
  | uint n => some n.toNat
  | float _ => none

def toDouble : Numeric → Double
  | int n => Double.ofInt n.toInt
  | uint n => Double.ofNat n.toNat
  | float x => x

end Numeric

/-- A value of an expression. -/
inductive Value
  | null
  | bool (value : Bool)
  | number (value : Numeric)
  | string (value : String)
  | array (items : List Value)
  | object (members : List (String × Value))
  /-- Nothing is to be assigned. -/
  | absent
  /-- The target is to be removed. -/
  | delete
  deriving Inhabited

/-- The category of a value, as error texts name it. -/
inductive Kind
  | null
  | bool
  | number
  | string
  | array
  | object
  | absent
  | delete
  deriving DecidableEq, Repr

def Kind.name : Kind → String
  | null => "null"
  | bool => "bool"
  | number => "number"
  | string => "string"
  | array => "array"
  | object => "object"
  | absent => "absent"
  | delete => "delete"

namespace Value

def kind : Value → Kind
  | null => .null
  | bool _ => .bool
  | number _ => .number
  | string _ => .string
  | array _ => .array
  | object _ => .object
  | absent => .absent
  | delete => .delete

/-- Data, as opposed to the two instructions. -/
def isDomain : Value → Bool
  | absent | delete => false
  | _ => true

def isNumber : Value → Bool
  | number _ => true
  | _ => false

def asBool? : Value → Option Bool
  | bool b => some b
  | _ => none

def asString? : Value → Option String
  | string s => some s
  | _ => none

/-- The item or member that one segment names. -/
def child? (segment : String) : Value → Option Value
  | object members => Entries.get? segment members
  | array items => do items[← Path.index? segment]?
  | _ => none

/-- The value at the end of a path; the empty path leads to the value itself. -/
def get? (v : Value) : Path → Option Value
  | [] => some v
  | segment :: rest => do (← v.child? segment).get? rest

end Value

end MessageMapping
