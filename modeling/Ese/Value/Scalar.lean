import Ese.Bytes.Source
import Ese.Guid
import Ese.Schema.Column
import Ese.Text.CodePage
import Ese.Value.Basic
/-!
Plain column values: numbers, GUIDs and text as the column's type says, and bytes for every type
that has no form of its own.
-/

namespace Ese

namespace Value

def ofU8 (n : UInt8) : Value := .int n.toUInt64.toInt64
def ofU16 (n : UInt16) : Value := .int n.toUInt64.toInt64
def ofU32 (n : UInt32) : Value := .int n.toUInt64.toInt64
def ofI16 (n : UInt16) : Value := .int n.toInt16.toInt64
def ofI32 (n : UInt32) : Value := .int n.toInt32.toInt64
def ofI64 (n : UInt64) : Value := .int n.toInt64

/-- The value of a column from its bytes. Only types of a fixed size can fail. -/
def decode (c : Column) (bytes : Bytes) : Except DecodeError Value :=
  match c.type with
  | .bit => (readU8 bytes 0 .columnValue).map fun n => .bool (n != 0)
  | .unsignedByte => (readU8 bytes 0 .columnValue).map ofU8
  | .short => (readU16 bytes 0 .columnValue).map ofI16
  | .unsignedShort => (readU16 bytes 0 .columnValue).map ofU16
  | .long => (readU32 bytes 0 .columnValue).map ofI32
  | .unsignedLong => (readU32 bytes 0 .columnValue).map ofU32
  | .longLong | .currency | .dateTime => (readU64 bytes 0 .columnValue).map ofI64
  | .ieeeSingle => (readU32 bytes 0 .columnValue).map fun n => .float (Decimal.widen n)
  | .ieeeDouble => (readU64 bytes 0 .columnValue).map .float
  | .guid => (slice bytes 0 16 .columnValue).map fun raw => .string (Guid.render raw)
  | .text | .longText => .ok (.string (Text.decodeCodePage bytes c.codePage))
  | .nil | .binary | .longBinary | .slv | .other _ => .ok (.bytes bytes)

end Value

end Ese
