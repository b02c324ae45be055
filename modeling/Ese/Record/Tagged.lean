import Ese.Record.Basic
import Ese.Text.Compressed
/-!
The tagged columns of a record. A directory holds the ids and the offsets of the values, and goes on
until the first value starts. A flag byte in front of a value tells whether it is null, compressed,
several values in one or a reference to a long value.
-/

namespace Ese.Record

structure Slot where
  id : UInt16
  /-- Where the value starts, counted from the start of the directory. -/
  offset : Nat
  hasFlags : Bool
  deriving DecidableEq, Repr

/-- With large tags every value has a flag byte, with small tags a bit of the offset tells. -/
def Slot.ofRaw (layout : Layout) (id raw : UInt16) : Slot :=
  if layout.hasLargeTags then ⟨id, (raw &&& 0x7FFF).toNat, true⟩
  else ⟨id, (raw &&& 0x1FFF).toNat, raw &&& 0x4000 != 0⟩

def earlier (limit : Option Nat) (first : Nat) : Nat :=
  match limit with
  | some l => min l first
  | none => first

/-- The entries from `position` on; `limit` is where the first of the values starts, if one is
known. -/
def readSlotsFrom (layout : Layout) (record : Bytes) (start position : Nat) (limit : Option Nat) :
    Except DecodeError (List Slot) :=
  if position < record.length ∧ limit.all (position < ·) then do
    let id ← readU16 record position .taggedDirectory
    let raw ← readU16 record (position + 2) .taggedDirectory
    let slot := Slot.ofRaw layout id raw
    let limit := earlier limit (start + slot.offset)
    let slots ← readSlotsFrom layout record start (position + 4) (some limit)
    return slot :: slots
  else .ok []
  termination_by record.length - position

def readSlots (layout : Layout) (record : Bytes) (start : Nat) : Except DecodeError (List Slot) :=
  readSlotsFrom layout record start start none

/-- The flag byte of a tagged value. -/
structure ValueFlags where
  byte : UInt8
  deriving DecidableEq, Repr

namespace ValueFlags

def compressed (f : ValueFlags) : Bool := f.byte &&& 0x02 != 0

/-- The value is a reference into the long-value trees. -/
def longValue (f : ValueFlags) : Bool := f.byte &&& 0x04 != 0

/-- There is more than one value, in either of the two forms. -/
def multiple (f : ValueFlags) : Bool := f.byte &&& 0x18 != 0

def null (f : ValueFlags) : Bool := f.byte &&& 0x20 != 0

end ValueFlags

/-- Takes the flag byte off a value. An empty value has none. -/
def splitFlags (hasFlags : Bool) (bytes : Bytes) : ValueFlags × Bytes :=
  match hasFlags, bytes with
  | true, flags :: rest => (⟨flags⟩, rest)
  | _, bytes => (⟨0⟩, bytes)

/-- Only text that is marked as compressed is taken for compressed. -/
def insertContent (c : Column) (compressed : Bool) (bytes : Bytes) : Decode Unit :=
  if compressed && c.type.isText then
    match Text.Compressed.decode bytes with
    | some text => insert c (.string text)
    | none => do
      remark (.lzxpressKept bytes.length)
      remark (.textKeptRaw c.name (Text.Compressed.classify bytes))
      insert c (.bytes bytes)
      warn (.lzxpress c.name)
  else insertPlain c bytes

def insertLongValue (schema : Schema) (c : Column) (compressed : Bool) (reference : Bytes) :
    Decode Unit := do
  let lid ← Lid.ofReference reference
  match schema.longValues.get? lid with
  | some content => insertContent c compressed content
  | none => do
    insert c (.bytes reference)
    warn (.missingLongValue c.name lid.value)

/-- A null value is left out of the row. -/
def insertTagged (schema : Schema) (c : Column) (flags : ValueFlags) (bytes : Bytes) :
    Decode Unit :=
  if flags.null then pure ()
  else if flags.multiple then do
    insert c (.bytes bytes)
    warn (.multiValue c.name)
  else if flags.longValue then insertLongValue schema c flags.compressed bytes
  else insertContent c flags.compressed bytes

/-- One value, up to `last`. Values of columns that are not in the table are passed over. -/
def decodeSlot (schema : Schema) (record : Bytes) (start : Nat) (slot : Slot) (last : Nat) :
    Decode Unit :=
  let first := start + slot.offset
  if last < first then throw (.format (.taggedOverlap slot.id))
  else do
    let bytes ← slice record first (last - first) .taggedColumn
    match schema.table.columns.byId? slot.id.toUInt32 with
    | some c =>
      let (flags, content) := splitFlags slot.hasFlags bytes
      insertTagged schema c flags content
    | none => remark (.columnNotListed slot.id schema.table.name)

/-- A value ends where the next one starts, and the last one with the record. -/
def decodeSlots (schema : Schema) (record : Bytes) (start : Nat) : List Slot → Decode Unit
  | [] => pure ()
  | [slot] => decodeSlot schema record start slot record.length
  | slot :: next :: slots => do
    decodeSlot schema record start slot (start + next.offset)
    decodeSlots schema record start (next :: slots)

def decodeTagged (schema : Schema) (record : Bytes) (start : Nat) : Decode Unit := do
  let slots ← readSlots schema.layout record start
  decodeSlots schema record start slots

end Ese.Record
