import Ese.Bytes.Source
import Ese.Layout
import Ese.Page.Header
import Ese.Page.TaggedValue
/-!
Pages under construction. The values of a page follow one another behind its header, and their
directory entries are written from the end of the page downwards.
-/

namespace Ese.Build

/-- A value before its flags are put where the layout wants them. -/
structure Item where
  flags : UInt8
  data : Bytes
  deriving DecidableEq, Repr

structure Page where
  flags : UInt32
  next : UInt32 := 0
  /-- The external key first. -/
  items : List Item := [⟨0, []⟩]
  deriving DecidableEq, Repr

namespace Page

def leaf : Page := { flags := Ese.Page.Flag.leaf }

def branch : Page := { flags := Ese.Page.Flag.parent }

def addFlags (p : Page) (flags : UInt32) : Page := { p with flags := p.flags ||| flags }

def withNext (p : Page) (next : UInt32) : Page := { p with next }

def withExternalKey (p : Page) (key : Bytes) : Page := { p with items := p.items.set 0 ⟨0, key⟩ }

/-- Drops all values, the external key included. -/
def withoutTags (p : Page) : Page := { p with items := [] }

def add (p : Page) (flags : UInt8) (data : Bytes) : Page :=
  { p with items := p.items ++ [⟨flags, data⟩] }

def addLeaf (p : Page) (key payload : Bytes) : Page :=
  p.add 0 (LittleEndian.encode 2 key.length ++ key ++ payload)

/-- A leaf entry that shares `common` bytes with the external key. -/
def addCommonLeaf (p : Page) (common : UInt16) (key payload : Bytes) : Page :=
  p.add TaggedValue.commonFlag
    (LittleEndian.encode 2 common.toNat ++ LittleEndian.encode 2 key.length ++ key ++ payload)

def addChild (p : Page) (key : Bytes) (child : UInt32) : Page :=
  p.add 0 (LittleEndian.encode 2 key.length ++ key ++ LittleEndian.encode 4 child.toNat)

/-- The stored bytes of a value: with large tags the flags go into its second byte. -/
def storedData (layout : Layout) (i : Item) : Bytes :=
  if layout.hasLargeTags then
    match i.data with
    | a :: b :: rest => a :: (b ||| (i.flags <<< 5)) :: rest
    | data => data
  else i.data

/-- The offset field of a directory entry: with small tags it holds the flags as well. -/
def offsetField (layout : Layout) (i : Item) (offset : Nat) : UInt16 :=
  if layout.hasLargeTags then UInt16.ofNat offset
  else UInt16.ofNat offset ||| (i.flags.toUInt16 <<< 13)

def directoryEntry (layout : Layout) (i : Item) (offset : Nat) : Bytes :=
  LittleEndian.encode 2 i.data.length ++
    LittleEndian.encode 2 (offsetField layout i offset).toNat

/-- The directory in page order, the last tag first; values start at `offset`. -/
def directory (layout : Layout) : List Item → (offset : Nat) → Bytes
  | [], _ => []
  | i :: items, offset =>
    directory layout items (offset + i.data.length) ++ directoryEntry layout i offset

def values (layout : Layout) (items : List Item) : Bytes := items.flatMap (storedData layout)

def header (layout : Layout) (p : Page) : Bytes :=
  List.replicate 20 0 ++ LittleEndian.encode 4 p.next.toNat ++ List.replicate 10 0 ++
    LittleEndian.encode 2 p.items.length ++ LittleEndian.encode 4 p.flags.toNat ++
    List.replicate (layout.pageHeaderSize - 40) 0

/-- The bytes between the values and the directory; a page may not be fuller than that. -/
def gap (layout : Layout) (p : Page) : Nat :=
  layout.pageSize - layout.pageHeaderSize - (values layout p.items).length - 4 * p.items.length

def encode (layout : Layout) (p : Page) : Bytes :=
  header layout p ++ values layout p.items ++ List.replicate (gap layout p) 0 ++
    directory layout p.items 0

end Page

end Ese.Build
