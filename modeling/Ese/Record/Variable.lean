import Ese.Record.Basic
/-!
The variable columns of a record. A directory holds the end of each value, counted from the start of
the values, and a mark for the null ones; a value starts where the one before it ends.
-/

namespace Ese.Record

structure VariableEnd where
  isNull : Bool
  position : Nat
  deriving DecidableEq, Repr

def VariableEnd.ofRaw (raw : UInt16) : VariableEnd := ⟨raw &&& 0x8000 != 0, (raw &&& 0x7FFF).toNat⟩

def variableId (index : Nat) : UInt32 := UInt32.ofNat (128 + index)

def decodeVariableValue (schema : Schema) (record : Bytes) (h : Header)
    (index previous last : Nat) : Decode Unit :=
  if last < previous then throw (.format (.variableEndBefore last previous))
  else do
    let bytes ← slice record (h.variableStart + previous) (last - previous) .variableColumn
    match schema.table.columns.byId? (variableId index) with
    | some c => insertPlain c bytes
    | none => pure ()

/-- The `remaining` values from `index` on. The answer is where the last of them ends. -/
def decodeVariableFrom (schema : Schema) (record : Bytes) (h : Header) :
    (remaining index previous : Nat) → Decode Nat
  | 0, _, previous => pure previous
  | remaining + 1, index, previous => do
    let raw ← readU16 record (h.directoryStart + 2 * index) .variableDirectory
    let last := VariableEnd.ofRaw raw
    unless last.isNull do
      decodeVariableValue schema record h index previous last.position
    decodeVariableFrom schema record h remaining (index + 1) last.position

/-- The answer is where the tagged area starts. -/
def decodeVariable (schema : Schema) (record : Bytes) (h : Header) : Decode Nat := do
  let last ← decodeVariableFrom schema record h h.variableCount 0 0
  return h.variableStart + last

end Ese.Record
