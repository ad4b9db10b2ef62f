import MessageMapping.Json.Writer
import MessageMapping.Value.Json

/-!
# Texts of values

Scalars are shown bare, strings without quotes; containers are shown as compact JSON.
-/

namespace MessageMapping

def Numeric.text : Numeric → String
  | int n => toString n.toInt
  | uint n => toString n.toNat
  | float x => x.plainText

def Value.text : Value → String
  | null => "null"
  | bool b => if b then "true" else "false"
  | number n => n.text
  | string s => s
  | absent => "<absent>"
  | delete => "<delete>"
  | v => (v.toJson?.getD .null).compact

end MessageMapping
