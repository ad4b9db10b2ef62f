import MessageMapping.Json.Basic
import MessageMapping.Value.Basic

/-!
# Values and JSON

Every JSON value is a value; its integers take the signed subtype where it holds them. The way
back leaves out the instructions inside containers, has no answer for an instruction itself, and
writes a float that JSON cannot hold as `null`.
-/

namespace MessageMapping

def Numeric.ofNumber : Number → Numeric
  | .int n .. => if n < 2 ^ 63 then int (Int64.ofInt n) else uint (UInt64.ofNat n.toNat)
  | .float x _ => float x

namespace Number

theorem toInt_lt (n : Int64) : n.toInt < 2 ^ 64 := by
  have := Int64.toInt_lt n
  omega

theorem le_toNat (n : UInt64) : -2 ^ 63 ≤ (n.toNat : Int) := by
  omega

theorem toNat_lt (n : UInt64) : (n.toNat : Int) < 2 ^ 64 := by
  have := n.toNat_lt
  omega

end Number

/-- The JSON number, if JSON has it. -/
def Numeric.toNumber? : Numeric → Option Number
  | int n => some (.int n.toInt (Int64.le_toInt n) (Number.toInt_lt n))
  | uint n => some (.int n.toNat (Number.le_toNat n) (Number.toNat_lt n))
  | float x => if h : x.isFinite = true then some (.float x h) else none

namespace Value

mutual

def ofJson : Json → Value
  | .null => null
  | .bool b => bool b
  | .number n => number (Numeric.ofNumber n)
  | .string s => string s
  | .array items => array (ofItems items)
  | .object members => object (ofMembers members)

def ofItems : List Json → List Value
  | [] => []
  | item :: rest => ofJson item :: ofItems rest

def ofMembers : List (String × Json) → List (String × Value)
  | [] => []
  | (key, value) :: rest => (key, ofJson value) :: ofMembers rest

end

mutual

/-- The JSON value of data. -/
def toJson? : Value → Option Json
  | null => some .null
  | bool b => some (.bool b)
  | number n => some ((n.toNumber?.map Json.number).getD .null)
  | string s => some (.string s)
  | array items => some (.array (toItems items))
  | object members => some (.object (toMembers members))
  | absent => none
  | delete => none

/-- The items that are data. -/
def toItems : List Value → List Json
  | [] => []
  | item :: rest =>
    match item.toJson? with
    | some json => json :: toItems rest
    | none => toItems rest

/-- The members that are data. -/
def toMembers : List (String × Value) → List (String × Json)
  | [] => []
  | (key, value) :: rest =>
    match value.toJson? with
    | some json => (key, json) :: toMembers rest
    | none => toMembers rest

end

end Value

end MessageMapping
