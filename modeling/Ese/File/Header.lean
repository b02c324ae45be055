import Ese.Bytes.Source
import Ese.Layout
/-!
The file header in the first block. Only the fields the reader needs are decoded.
-/

namespace Ese.File

inductive State where
  | justCreated
  | dirtyShutdown
  | cleanShutdown
  | beingConverted
  | forceDetach
  | unknown (code : UInt32)
  deriving DecidableEq, Repr

namespace State

def ofCode (code : UInt32) : State :=
  if code = 1 then justCreated
  else if code = 2 then dirtyShutdown
  else if code = 3 then cleanShutdown
  else if code = 4 then beingConverted
  else if code = 5 then forceDetach
  else unknown code

def name : State → String
  | justCreated => "JustCreated"
  | dirtyShutdown => "DirtyShutdown"
  | cleanShutdown => "CleanShutdown"
  | beingConverted => "BeingConverted"
  | forceDetach => "ForceDetach"
  | unknown code => s!"Unknown({code.toNat})"

end State

structure Header where
  checksum : UInt32
  version : UInt32
  fileType : UInt32
  state : State
  revision : UInt32
  pageSize : UInt32
  deriving DecidableEq, Repr

namespace Header

/-- The bytes that hold all fields. -/
def size : Nat := 240

def signature : UInt32 := 0x89ABCDEF

def pageSizes : List UInt32 := [4096, 8192, 16384, 32768]

def readFields {α : Type} [ByteSource α] (bytes : α) (pageSize : UInt32) :
    Except DecodeError Header := do
  return {
    checksum := ← readU32 bytes 0 .fileHeader
    version := ← readU32 bytes 8 .fileHeader
    fileType := ← readU32 bytes 12 .fileHeader
    state := State.ofCode (← readU32 bytes 52 .fileHeader)
    revision := ← readU32 bytes 232 .fileHeader
    pageSize }

/-- The signature is checked before the page size, and both before the other fields. -/
def read {α : Type} [ByteSource α] (bytes : α) : Except DecodeError Header :=
  if ByteSource.size bytes < size then .error (.format .headerTooShort)
  else do
    let found ← readU32 bytes 4 .fileHeader
    if found ≠ signature then .error (.format (.badSignature found))
    else do
      let pageSize ← readU32 bytes 236 .fileHeader
      if pageSize ∈ pageSizes then readFields bytes pageSize
      else .error (.format (.unsupportedPageSize pageSize))

def layout (h : Header) : Layout := ⟨h.version, h.revision, h.pageSize.toNat⟩

end Header

end Ese.File
