import Ese.Record.Basic
/-!
The fixed columns of a record. They follow one another behind the header, the null ones as well; a
bitmap at the end of the area tells which of them are null.
-/

namespace Ese.Record

/-- The bitmap ends where the variable area starts. -/
def readBitmap (record : Bytes) (h : Header) : Except DecodeError Bytes :=
  if h.directoryStart < h.bitmapLength then
    .error (.format (.noRoomForBitmap h.directoryStart))
  else slice record (h.directoryStart - h.bitmapLength) h.bitmapLength .nullBitmap

/-- Whether the bit of a column is set; the first bit is that of column one. -/
def isNull (bitmap : Bytes) (id : UInt32) : Except DecodeError Bool :=
  match id.toNat with
  | 0 => .error (.fault .columnZero)
  | bit + 1 =>
    match bitmap[bit / 8]? with
    | some byte => .ok ((byte >>> UInt8.ofNat (bit % 8)) &&& 1 != 0)
    | none => .error (.fault (.outside (bit / 8) bitmap.length))

def fixedStart : Nat := 4

/-- The columns from `offset` on, up to the last one the record has. -/
def decodeFixedFrom (record bitmap : Bytes) (lastFixed : UInt8) :
    List Column → (offset : Nat) → Decode Unit
  | [], _ => pure ()
  | c :: columns, offset =>
    if c.id > lastFixed.toUInt32 then pure ()
    else match c.fixedWidth with
      | none => throw (.schema (.noWidth c.name))
      | some width => do
        let bytes ← slice record offset width .fixedColumn
        let null ← isNull bitmap c.id
        unless null do insertPlain c bytes
        decodeFixedFrom record bitmap lastFixed columns (offset + width)

def decodeFixed (schema : Schema) (record : Bytes) (h : Header) : Decode Unit := do
  let bitmap ← readBitmap record h
  decodeFixedFrom record bitmap h.lastFixed schema.table.columns.fixed fixedStart

end Ese.Record
