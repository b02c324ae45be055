import Ese.Bytes.Source
import Ese.Schema.Table
import Ese.Text.CodePage
/-!
Catalog records. Each has its fields at fixed offsets and ends in the name of the item it describes,
the first variable column of the record.
-/

namespace Ese.Catalog

inductive Entry where
  | table (name : String) (objectId : UInt32) (root : PageId)
  | column (tableId : UInt32) (column : Column)
  | index (tableId : UInt32) (index : Index)
  | longValue (tableId : UInt32) (slot : LongValueSlot)
  | callback (name : String)
  deriving DecidableEq, Repr

/-- The fields of a record, before its kind is looked at. -/
structure Fields where
  objectId : UInt32
  kind : UInt16
  identifier : UInt32
  /-- The column type of a column, the root page of a tree. -/
  typeOrRoot : UInt32
  width : UInt32
  flags : UInt32
  /-- The code page of a column, the locale of an index. -/
  codePageOrLocale : UInt32
  name : String
  deriving DecidableEq, Repr

/-- The entries of the variable directory; ids below 128 count from one. -/
def directoryLength (lastVariable : Nat) : Nat :=
  if lastVariable > 127 then lastVariable - 127 else lastVariable

/-- The first variable column. -/
def itemName (record : Bytes) : Except DecodeError String := do
  let lastVariable ← readU8 record 1 .catalogRecord
  let offset ← readU16 record 2 .catalogRecord
  let raw ← readU16 record offset.toNat .catalogItemName
  let start := offset.toNat + 2 * directoryLength lastVariable.toNat
  let bytes ← slice record start (raw &&& 0x7FFF).toNat .catalogItemName
  return Text.decodeCodePage bytes 1252

def Fields.read (record : Bytes) : Except DecodeError Fields := do
  return {
    objectId := ← readU32 record 4 .catalogRecord
    kind := ← readU16 record 8 .catalogRecord
    identifier := ← readU32 record 10 .catalogRecord
    typeOrRoot := ← readU32 record 14 .catalogRecord
    width := ← readU32 record 18 .catalogRecord
    flags := ← readU32 record 22 .catalogRecord
    codePageOrLocale := ← readU32 record 26 .catalogRecord
    name := ← itemName record }

def Fields.entry (f : Fields) : Except DecodeError Entry :=
  if f.kind = 1 then .ok (.table f.name f.objectId ⟨f.typeOrRoot⟩)
  else if f.kind = 2 then
    .ok (.column f.objectId {
      id := f.identifier
      name := f.name
      type := .ofCode f.typeOrRoot
      width := f.width
      flags := f.flags
      codePage := f.codePageOrLocale })
  else if f.kind = 3 then .ok (.index f.objectId ⟨f.name, ⟨f.typeOrRoot⟩, f.codePageOrLocale⟩)
  else if f.kind = 4 then .ok (.longValue f.objectId ⟨f.name, ⟨f.typeOrRoot⟩⟩)
  else if f.kind = 5 then .ok (.callback f.name)
  else .error (.schema (.unknownRecordType f.kind f.name))

def Entry.decode (record : Bytes) : Except DecodeError Entry := do
  (← Fields.read record).entry

end Ese.Catalog
