import Ese.Decimal.Style
import Ese.Json.Writer
import Ese.Text.Hex
/-!
Decoded column values, as text for people and as JSON.
-/

namespace Ese

inductive Value where
  | bool (b : Bool)
  | int (i : Int64)
  /-- A double-precision number, by its bits. -/
  | float (bits : UInt64)
  | string (s : String)
  | bytes (bytes : List UInt8)
  deriving DecidableEq, Repr

namespace Value

def display : Value → String
  | bool true => "true"
  | bool false => "false"
  | int i => toString i.toInt
  | float bits => Decimal.render Decimal.plainStyle bits
  | string s => s
  | bytes b => Text.Hex.ofBytes b

def toJson : Value → Json
  | bool b => .bool b
  | int i => .number (toString i.toInt)
  | float bits => .number (Decimal.render Decimal.jsonStyle bits)
  | string s => .string s
  | bytes b => .string (Text.Hex.ofBytes b)

def asString? : Value → Option String
  | string s => some s
  | _ => none

def asInt? : Value → Option Int64
  | int i => some i
  | _ => none

def asBytes? : Value → Option (List UInt8)
  | bytes b => some b
  | _ => none

end Value

end Ese
