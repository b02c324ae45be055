import Ese.PageId
import Ese.Text.Quoted
/-!
What can go wrong. A `DecodeError` is about the bytes of a file; an `Error` is how a whole run ends.
Both are causes, and `message` holds every wording.
-/

namespace Ese

inductive Part where
  | field
  | fileHeader
  | page
  | pageHeader
  | tagDirectory
  | taggedValue
  | entryKeyHeader
  | leafKey
  | branchKey
  | branchChild
  | catalogRecord
  | catalogItemName
  | longValueReference
  | recordHeader
  | nullBitmap
  | fixedColumn
  | variableDirectory
  | variableColumn
  | taggedDirectory
  | taggedColumn
  | columnValue
  deriving DecidableEq, Repr

def Part.name : Part → String
  | field => "field"
  | fileHeader => "file header"
  | page => "page"
  | pageHeader => "page header"
  | tagDirectory => "tag directory"
  | taggedValue => "tagged value"
  | entryKeyHeader => "entry key header"
  | leafKey => "leaf key"
  | branchKey => "branch key"
  | branchChild => "branch child"
  | catalogRecord => "catalog record"
  | catalogItemName => "catalog item name"
  | longValueReference => "long value reference"
  | recordHeader => "record header"
  | nullBitmap => "null bitmap"
  | fixedColumn => "fixed column"
  | variableDirectory => "variable directory"
  | variableColumn => "variable column"
  | taggedDirectory => "tagged directory"
  | taggedColumn => "tagged column"
  | columnValue => "column value"

inductive FormatCause where
  | headerTooShort
  | badSignature (found : UInt32)
  | unsupportedPageSize (size : UInt32)
  | missingHeaderPages (fileSize pageSize : Nat)
  | treeTooDeep (start : PageId) (levels : Nat)
  | noRoomForBitmap (variableOffset : Nat)
  | variableEndBefore (found previous : Nat)
  | taggedOverlap (id : UInt16)
  /-- A callback's own complaint. -/
  | reported (text : String)
  deriving DecidableEq, Repr

/-- The kinds of catalog record that belong to a table. -/
inductive MemberKind where
  | column
  | index
  | longValue
  deriving DecidableEq, Repr

def MemberKind.name : MemberKind → String
  | column => "column"
  | index => "index"
  | longValue => "long value"

inductive SchemaCause where
  | unknownRecordType (code : UInt16) (name : String)
  | beforeAnyTable (kind : MemberKind) (name : String)
  | noWidth (column : String)
  | reported (text : String)
  deriving DecidableEq, Repr

/-- A bound the reader relies on, broken. No run on any file comes to one. -/
inductive Fault where
  /-- An offset that no 64-bit word can hold. -/
  | unaddressable (offset : Nat)
  | outside (index size : Nat)
  /-- The id zero, where only columns of records occur. -/
  | columnZero
  /-- A chain of more pages than there are page numbers. -/
  | endlessChain (page : PageId)
  | overflow (bits number : Nat)
  | negative (minuend subtrahend : Nat)
  /-- A shift by the width of the word or more. -/
  | overshift (bits amount : Nat)
  | zeroDivisor
  deriving DecidableEq, Repr

inductive DecodeError where
  | format (cause : FormatCause)
  | schema (cause : SchemaCause)
  | truncated (part : Part) (offset needed available : Nat)
  | fault (fault : Fault)
  deriving DecidableEq, Repr

/-- A row that could not be decoded during a table dump. -/
structure RowError where
  page : PageId
  tag : Nat
  reason : DecodeError
  deriving DecidableEq, Repr

inductive Error where
  | io (text : String)
  | decode (error : DecodeError)
  | tableNotFound (name : String)
  | rowErrors (decoded : Nat) (errors : List RowError)
  | cancelled
  deriving DecidableEq, Repr

instance : Coe DecodeError Error := ⟨.decode⟩

def FormatCause.message : FormatCause → String
  | headerTooShort => "header too short"
  | badSignature found =>
    s!"bad signature {Text.Hex.word found}, expected {Text.Hex.word 0x89ABCDEF}"
  | unsupportedPageSize size => s!"unsupported page size: {size.toNat}"
  | missingHeaderPages fileSize pageSize =>
    s!"file is {fileSize} bytes, shorter than the two {pageSize}-byte header pages"
  | treeTooDeep start levels =>
    s!"tree below page {start.value.toNat} is deeper than {levels} levels"
  | noRoomForBitmap offset => s!"variable offset {offset} leaves no room for the null bitmap"
  | variableEndBefore found previous => s!"variable column end {found} before {previous}"
  | taggedOverlap id => s!"tagged column {id.toNat} overlaps its successor"
  | reported text => text

def SchemaCause.message : SchemaCause → String
  | unknownRecordType code name =>
    s!"unknown catalog record type {code.toNat} for {Text.Quoted.encode name}"
  | beforeAnyTable kind name =>
    s!"{kind.name} record {Text.Quoted.encode name} appears before any table"
  | noWidth column => s!"fixed column {column} has no width"
  | reported text => text

def Fault.message : Fault → String
  | unaddressable offset => s!"offset {offset} is not addressable"
  | outside index size => s!"position {index} is outside {size} bytes"
  | columnZero => "a record has no column zero"
  | endlessChain page => s!"page chain does not end at page {page.value.toNat}"
  | overflow bits number => s!"{number} does not fit {bits} bits"
  | negative minuend subtrahend => s!"{subtrahend} cannot be taken from {minuend}"
  | overshift bits amount => s!"{bits} bits cannot be shifted by {amount}"
  | zeroDivisor => "division by zero"

def DecodeError.message : DecodeError → String
  | format cause => "Invalid ESE file: " ++ cause.message
  | schema cause => "Schema error: " ++ cause.message
  | truncated part offset needed available =>
    s!"Truncated {part.name}: need {needed} bytes at offset {offset}, only {available} available"
  | fault f => "Internal error: " ++ f.message

def RowError.message (e : RowError) : String :=
  s!"page {e.page.value.toNat}, tag {e.tag}: {e.reason.message}"

def Error.message : Error → String
  | io text => "I/O error: " ++ text
  | decode e => e.message
  | tableNotFound name => "Table not found: " ++ name
  | rowErrors decoded errors =>
    s!"{errors.length} rows failed to decode ({decoded} rows decoded)"
  | cancelled => "Walk cancelled"

end Ese
