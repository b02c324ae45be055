import Ese.Bytes.Source
/-!
The 40-byte header at the start of every page: links to the neighbours, the number of tags and the
flags that say what the page holds.
-/

namespace Ese.Page

structure Header where
  previous : PageId
  next : PageId
  /-- The object id of the tree that owns the page. -/
  father : UInt32
  available : UInt16
  firstAvailable : UInt16
  tagCount : UInt16
  flags : UInt32
  deriving DecidableEq, Repr

namespace Flag

def root : UInt32 := 0x01
def leaf : UInt32 := 0x02
def parent : UInt32 := 0x04
def spaceTree : UInt32 := 0x20
def index : UInt32 := 0x40
def longValue : UInt32 := 0x80

end Flag

namespace Header

def size : Nat := 40

/-- The whole header has to be there before a field is looked at. -/
def read {α : Type} [ByteSource α] (s : α) : Except DecodeError Header := do
  let _ ← slice s 0 size .pageHeader
  return {
    previous := ⟨← readU32 s 16 .pageHeader⟩
    next := ⟨← readU32 s 20 .pageHeader⟩
    father := ← readU32 s 24 .pageHeader
    available := ← readU16 s 28 .pageHeader
    firstAvailable := ← readU16 s 32 .pageHeader
    tagCount := ← readU16 s 34 .pageHeader
    flags := ← readU32 s 36 .pageHeader }

def isLeaf (h : Header) : Bool := h.flags &&& Flag.leaf != 0

def isBranch (h : Header) : Bool := !h.isLeaf

def isRoot (h : Header) : Bool := h.flags &&& Flag.root != 0

/-- Whether the entries are table rows, and not of a space tree, an index or a long-value tree. -/
def holdsRecords (h : Header) : Bool :=
  h.flags &&& (Flag.spaceTree ||| Flag.index ||| Flag.longValue) == 0

end Header

end Ese.Page
