import MessageMapping.Double.Basic
import MessageMapping.Entries

/-!
# JSON values

A JSON number is an integer of 64 bits, signed or unsigned, or a finite binary64 number; the two
are different numbers even where their values agree. Members of an object keep their order.
-/

namespace MessageMapping

/-- A JSON number. -/
inductive Number
  | int (value : Int) (lower : -2 ^ 63 ≤ value) (upper : value < 2 ^ 64)
  | float (value : Double) (finite : value.isFinite = true)

/-- A JSON value. -/
inductive Json
  | null
  | bool (value : Bool)
  | number (value : Number)
  | string (value : String)
  | array (items : List Json)
  | object (members : List (String × Json))
  deriving Inhabited

namespace Json

/-- What is wrong with a text that is not JSON. -/
inductive Fault
  /-- The text ends where more is due. -/
  | ended
  /-- A byte stands where it cannot, a number is too large, or containers nest too deep. -/
  | malformed
  deriving DecidableEq, Repr

def Fault.message : Fault → String
  | .ended => "<eof>"
  | .malformed => "<syntax>"

mutual

/-- The number of containers around the innermost value, those of an empty container included. -/
def depth : Json → Nat
  | .array items => itemsDepth items + 1
  | .object members => membersDepth members + 1
  | _ => 0

def itemsDepth : List Json → Nat
  | [] => 0
  | item :: rest => max item.depth (itemsDepth rest)

def membersDepth : List (String × Json) → Nat
  | [] => 0
  | (_, value) :: rest => max value.depth (membersDepth rest)

end

end Json

end MessageMapping
