import Ese.Page.Header
import Ese.Page.TaggedValue
/-!
A page: one block of the file with its header decoded. Tag 0 holds the external key; the entries
start at tag 1.
-/

namespace Ese

structure Page where
  id : PageId
  header : Page.Header
  layout : Layout
  data : ByteArray

namespace Page

def ofBlock (id : PageId) (layout : Layout) (data : ByteArray) : Except DecodeError Page := do
  let header ← Header.read data
  return { id, header, layout, data }

def tagCount (p : Page) : Nat := p.header.tagCount.toNat

def tag (p : Page) (index : Nat) : Except DecodeError TaggedValue :=
  TaggedValue.read p.layout p.data index

/-- All tagged values in order, the external key first. One that cannot be read fails them all. -/
def values (p : Page) : Except DecodeError (List TaggedValue) :=
  (List.range p.tagCount).mapM p.tag

end Page

end Ese
