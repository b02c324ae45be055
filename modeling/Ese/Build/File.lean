import Ese.Build.Page
import Ese.File.Header
/-!
File images under construction: the header and its shadow copy, then the blocks of the pages, with
zeros for the pages that were not placed.
-/

namespace Ese.Build

structure File where
  layout : Layout
  /-- The blocks placed so far, the latest first. -/
  blocks : List (UInt32 × ByteArray) := []

namespace File

def placeBlock (f : File) (id : UInt32) (data : ByteArray) : File :=
  { f with blocks := (id, data) :: f.blocks }

def place (f : File) (id : UInt32) (p : Page) : File :=
  f.placeBlock id ⟨(p.encode f.layout).toArray⟩

def last (f : File) : Nat := f.blocks.foldl (fun n b => max n b.1.toNat) 0

def cleanShutdown : Nat := 3

def header (layout : Layout) : Bytes :=
  List.replicate 4 0 ++ LittleEndian.encode 4 Ese.File.Header.signature.toNat ++
    LittleEndian.encode 4 layout.version.toNat ++ List.replicate 40 0 ++
    LittleEndian.encode 4 cleanShutdown ++ List.replicate 176 0 ++
    LittleEndian.encode 4 layout.revision.toNat ++ LittleEndian.encode 4 layout.pageSize ++
    List.replicate (layout.pageSize - 240) 0

/-- The block of a page: the latest one placed, zeros if there is none. Page zero would lie where
the shadow header does. -/
def blockOf (f : File) (shadow zeros : ByteArray) (id : Nat) : ByteArray :=
  match f.blocks.find? fun b => b.1.toNat = id with
  | some b => b.2
  | none => if id = 0 then shadow else zeros

def build (f : File) : ByteArray :=
  let head : ByteArray := ⟨(header f.layout).toArray⟩
  let zeros : ByteArray := ⟨Array.replicate f.layout.pageSize 0⟩
  (List.range (f.last + 1)).foldl (fun image id => image ++ f.blockOf head zeros id) head

end File

end Ese.Build
