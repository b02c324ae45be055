import Ese.Record.Fixed
import Ese.Record.Tagged
import Ese.Record.Variable
/-!
Whole records: the fixed columns, the variable columns and the tagged columns, in this order.
-/

namespace Ese.Record

def decodeInto (schema : Schema) (record : Bytes) : Decode Unit := do
  let header ← Header.read record
  decodeFixed schema record header
  let taggedStart ← decodeVariable schema record header
  decodeTagged schema record taggedStart

def decode (schema : Schema) (record : Bytes) : Except DecodeError Row :=
  match decodeInto schema record {} with
  | .ok () draft => .ok draft.row
  | .error e _ => .error e

end Ese.Record
