import Ese.File.Header
import Ese.Page.Basic
/-!
An open file: its bytes and its header. Pages are addressed by number, behind the two header blocks.
-/

namespace Ese

structure File where
  source : ByteArray
  header : File.Header

namespace File

def layout (f : File) : Layout := f.header.layout

def pageSize (f : File) : Nat := f.layout.pageSize

def size (f : File) : Nat := ByteSource.size f.source

/-- Both header blocks have to be there. -/
def ofBytes (source : ByteArray) : Except DecodeError File := do
  let header ← Header.read (ByteSource.read source 0 Header.size)
  let pageSize := header.layout.pageSize
  if ByteSource.size source < 2 * pageSize then
    .error (.format (.missingHeaderPages (ByteSource.size source) pageSize))
  else .ok { source, header }

/-- The whole pages behind the header blocks. -/
def pageCount (f : File) : Nat := f.size / f.pageSize - 2

def pageOffset (f : File) (id : PageId) : Nat := id.fileOffset f.pageSize

def readPage (f : File) (id : PageId) : Except DecodeError Page :=
  let data := block f.source (f.pageOffset id) f.pageSize
  if data.size < f.pageSize then
    .error (.truncated .page (f.pageOffset id) f.pageSize data.size)
  else Page.ofBlock id f.layout data

/-- The header of a page needs no more than its own bytes. -/
def readPageHeader (f : File) (id : PageId) : Except DecodeError Page.Header :=
  Page.Header.read (ByteSource.read f.source (f.pageOffset id) Page.Header.size)

def summary (f : File) : String :=
  s!"FileContext \x7b file_size: {f.size}, layout: FormatLayout \x7b "
    ++ s!"version: {f.layout.version.toNat}, revision: {f.layout.revision.toNat}, "
    ++ s!"page_size: {f.pageSize} \x7d, .. \x7d"

end File

end Ese
