/-!
Page numbers. The first two blocks of a file hold the header and its shadow copy, so page `n` is
block `n + 1`; zero and the all-ones number stand for "no page".
-/

namespace Ese

/-- A logical page number, as stored in page links. -/
structure PageId where
  value : UInt32
  deriving DecidableEq, Hashable, Repr, Inhabited

namespace PageId

/-- The root of the catalog tree. -/
def catalog : PageId := ⟨4⟩

def isValid (p : PageId) : Bool := p.value != 0 && p.value != 0xFFFFFFFF

def fileOffset (p : PageId) (pageSize : Nat) : Nat := (p.value.toNat + 1) * pageSize

end PageId

end Ese
