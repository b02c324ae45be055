import Ese.Bytes.Source
import Ese.Layout
/-!
Tagged values. The tag directory grows down from the end of the page, four bytes a tag: the size of
a value and its offset behind the page header. With small tags the flags are the top three bits of
the offset; with large tags they are the top three bits of the second byte of the value.
-/

namespace Ese

structure TaggedValue where
  index : Nat
  flags : UInt8
  /-- The bytes, without any flag bits. -/
  data : Bytes
  deriving DecidableEq, Repr

namespace TaggedValue

def commonFlag : UInt8 := 0x4

/-- Whether the key starts with bytes of the page's external key. -/
def hasCommonKey (v : TaggedValue) : Bool := v.flags &&& commonFlag != 0

def inValueFlags : Bytes → UInt8
  | _ :: b :: _ => b >>> 5
  | _ => 0

def clearInValueFlags : Bytes → Bytes
  | a :: b :: rest => a :: (b &&& 0x1F) :: rest
  | data => data

def smallMask : UInt16 := 0x1FFF

def largeMask : UInt16 := 0x7FFF

def locate {α : Type} [ByteSource α] (layout : Layout) (page : α) (index : Nat)
    (rawSize rawOffset : UInt16) : Except DecodeError TaggedValue :=
  let mask := if layout.hasLargeTags then largeMask else smallMask
  let offset := layout.pageHeaderSize + (rawOffset &&& mask).toNat
  (slice page offset (rawSize &&& mask).toNat .taggedValue).map fun data =>
    if layout.hasLargeTags then ⟨index, inValueFlags data, clearInValueFlags data⟩
    else ⟨index, (rawOffset >>> 13).toUInt8, data⟩

def read {α : Type} [ByteSource α] (layout : Layout) (page : α) (index : Nat) :
    Except DecodeError TaggedValue :=
  if layout.pageSize < 4 * (index + 1) then
    .error (.truncated .tagDirectory 0 4 (ByteSource.size page))
  else do
    let entry := layout.pageSize - 4 * (index + 1)
    let rawSize ← readU16 page entry .tagDirectory
    let rawOffset ← readU16 page (entry + 2) .tagDirectory
    locate layout page index rawSize rawOffset

end TaggedValue

end Ese
