/-!
The layout of a file: the three header values on which the form of every page depends.
-/

namespace Ese

structure Layout where
  version : UInt32
  revision : UInt32
  pageSize : Nat
  deriving DecidableEq, Repr, Inhabited

namespace Layout

/-- Large pages leave no room for flag bits in a 15-bit offset, so the newer revisions move the
flags of a tagged value into the value itself. -/
def hasLargeTags (l : Layout) : Bool :=
  l.version == 0x620 && l.revision ≥ 0x11 && l.pageSize > 8192

/-- Pages over 8 KiB carry 40 more header bytes. -/
def pageHeaderSize (l : Layout) : Nat := if l.pageSize > 8192 then 80 else 40

end Layout

end Ese
