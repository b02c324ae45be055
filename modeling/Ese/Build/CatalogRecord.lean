import Ese.Build.Record
import Ese.Catalog.Entry
/-!
Catalog records under construction: seven numbers in fixed columns, and the name of the item as the
only variable column.
-/

namespace Ese.Build

/-- Records without tagged columns do not depend on the layout. -/
def plainLayout : Layout := ⟨0x620, 0x11, 8192⟩

def catalogRecordBytes (objectId : UInt32) (kind : UInt16)
    (identifier typeOrRoot width flags codePageOrLocale : UInt32) (name : Bytes) : Bytes :=
  let record : Record :=
    { fixed :=
        [⟨LittleEndian.encode 4 objectId.toNat, false⟩,
         ⟨LittleEndian.encode 2 kind.toNat, false⟩,
         ⟨LittleEndian.encode 4 identifier.toNat, false⟩,
         ⟨LittleEndian.encode 4 typeOrRoot.toNat, false⟩,
         ⟨LittleEndian.encode 4 width.toNat, false⟩,
         ⟨LittleEndian.encode 4 flags.toNat, false⟩,
         ⟨LittleEndian.encode 4 codePageOrLocale.toNat, false⟩]
      varying := [some name] }
  record.encode plainLayout

def utf8 (text : String) : Bytes := text.toUTF8.data.toList

def catalogRecord (objectId : UInt32) (kind : UInt16)
    (identifier typeOrRoot width flags codePageOrLocale : UInt32) (name : String) : Bytes :=
  catalogRecordBytes objectId kind identifier typeOrRoot width flags codePageOrLocale (utf8 name)

def tableRecord (name : String) (objectId root : UInt32) : Bytes :=
  catalogRecord objectId 1 objectId root 80 0 1 name

def columnRecord (table : UInt32) (name : String) (id type width codePage : UInt32) : Bytes :=
  catalogRecord table 2 id type width 0 codePage name

def indexRecord (table : UInt32) (name : String) (root : UInt32) : Bytes :=
  catalogRecord table 3 0 root 80 0 1033 name

def longValueRecord (table : UInt32) (name : String) (root : UInt32) : Bytes :=
  catalogRecord table 4 0 root 80 0 1 name

end Ese.Build
