import Ese.Build.CatalogRecord
import Ese.Build.File
import Ese.Text.SevenBit
import Ese.Text.Utf16
/-!
A small database with everything in it: a table `T` of two rows below a branch page, a table `Notes`
with a long-value tree and compressed texts, and a table `Broken` of one good row and one cut short.
-/

namespace Ese.Build

def packSevenBit (text : String) : Bytes := Text.SevenBit.pack (utf8 text)

def encodeUtf16 (text : String) : Bytes := Text.Utf16.encode text.toList

def countRow (count : Int32) (name : String) : Bytes :=
  let record : Record :=
    { fixed := [⟨LittleEndian.encode 4 count.toUInt32.toNat, false⟩]
      varying := [some (utf8 name)] }
  record.encode plainLayout

namespace Sample

def longValueFlag : UInt8 := 0x04

def compressedFlag : UInt8 := 0x02

def created : Nat := 0x01D9000012345678

def longText : String := "hello long value"

def shortText : String := "short note"

def word (n : Nat) : Bytes := LittleEndian.encode 4 n

def catalogPage : Page :=
  let records : List Bytes :=
    [tableRecord "T" 10 5,
     columnRecord 10 "Count" 1 4 4 1252,
     columnRecord 10 "Name" 128 10 255 1252,
     indexRecord 10 "TByName" 8,
     tableRecord "Notes" 11 9,
     columnRecord 11 "Id" 1 4 4 1252,
     columnRecord 11 "Created" 2 8 8 1252,
     columnRecord 11 "Body" 256 12 0 1200,
     columnRecord 11 "Blob" 257 11 0 0,
     longValueRecord 11 "LVNotes" 12,
     tableRecord "Broken" 12 13,
     columnRecord 12 "Id" 1 4 4 1252]
  records.zipIdx.foldl (fun p (record, i) => p.addLeaf [UInt8.ofNat (i + 1)] record)
    (Page.leaf.addFlags Ese.Page.Flag.root)

/-- The rows of `Notes`: a long value, a packed text and a null time, and two values left raw. -/
def notes : List Record :=
  [{ fixed := [⟨word 1, false⟩, ⟨LittleEndian.encode 8 created, false⟩]
     tagged := [⟨256, longValueFlag, word 1⟩] },
   { fixed := [⟨word 2, false⟩, ⟨List.replicate 8 0, true⟩]
     tagged := [⟨256, compressedFlag, 0x10 :: packSevenBit shortText⟩] },
   { fixed := [⟨word 3, false⟩]
     tagged := [⟨256, compressedFlag, [0x18, 0x41, 0x42]⟩, ⟨257, longValueFlag, word 0x63⟩] }]

def notesPage (layout : Layout) : Page :=
  notes.zipIdx.foldl (fun p (record, i) => p.addLeaf [UInt8.ofNat (i + 1)] (record.encode layout))
    (Page.leaf.addFlags Ese.Page.Flag.root)

/-- The root entry of the one long value, and its only segment. -/
def longValuesPage : Page :=
  ((Page.leaf.addFlags (Ese.Page.Flag.root ||| Ese.Page.Flag.longValue)).withExternalKey
    [0, 0, 0, 1]
    |>.addLeaf [0, 0, 0, 1] [1, 0, 0, 0, 0x20, 0, 0, 0]
    |>.addCommonLeaf 4 [0, 0, 0, 0] (encodeUtf16 longText))

def brokenPage (layout : Layout) : Page :=
  let good : Record := { fixed := [⟨word 7, false⟩] }
  (Page.leaf.addFlags Ese.Page.Flag.root).addLeaf [1] (good.encode layout)
    |>.addLeaf [2] [0x01, 0x80]

def indexPage : Page :=
  (Page.leaf.addFlags (Ese.Page.Flag.root ||| Ese.Page.Flag.index)).addLeaf [0x61] [1, 0, 0, 0]

def file (layout : Layout) : File :=
  let start : File := { layout }
  start.place 4 catalogPage
    |>.place 5 ((Page.branch.addFlags Ese.Page.Flag.root).addChild [1] 6)
    |>.place 6 ((Page.leaf.withNext 7).addLeaf [1] (countRow 1 "a"))
    |>.place 7 (Page.leaf.addLeaf [2] (countRow 2 "b"))
    |>.place 8 indexPage
    |>.place 9 (notesPage layout)
    |>.place 12 longValuesPage
    |>.place 13 (brokenPage layout)

def image (layout : Layout) : ByteArray := (file layout).build

end Sample

end Ese.Build
