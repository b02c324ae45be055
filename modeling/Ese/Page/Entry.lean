import Ese.Page.TaggedValue
/-!
Entries. Leaf and branch entries start with a key header, the number of bytes shared with the
external key (only in entries that share some) and the number of key bytes of their own; then come
the key bytes, and then the payload of a leaf entry or the child page of a branch entry.
-/

namespace Ese

structure KeyHeader where
  commonSize : Option UInt16
  localSize : UInt16
  localOffset : Nat
  deriving DecidableEq, Repr

namespace KeyHeader

def endOffset (h : KeyHeader) : Nat := h.localOffset + h.localSize.toNat

def read (v : TaggedValue) : Except DecodeError KeyHeader :=
  if v.hasCommonKey then do
    let common ← readU16 v.data 0 .entryKeyHeader
    let size ← readU16 v.data 2 .entryKeyHeader
    return ⟨some common, size, 4⟩
  else do
    let size ← readU16 v.data 0 .entryKeyHeader
    return ⟨none, size, 2⟩

end KeyHeader

structure LeafEntry where
  key : KeyHeader
  localKey : Bytes
  payload : Bytes
  deriving DecidableEq, Repr

/-- The bytes from `offset` on, which the caller knows to be inside. -/
def bytesFrom (data : Bytes) (offset : Nat) : Except DecodeError Bytes :=
  if offset ≤ data.length then .ok (data.drop offset)
  else .error (.fault (.outside offset data.length))

def LeafEntry.parse (v : TaggedValue) : Except DecodeError LeafEntry := do
  let key ← KeyHeader.read v
  let localKey ← slice v.data key.localOffset key.localSize.toNat .leafKey
  let payload ← bytesFrom v.data key.endOffset
  return { key, localKey, payload }

structure BranchEntry where
  key : KeyHeader
  localKey : Bytes
  child : PageId
  deriving DecidableEq, Repr

def BranchEntry.parse (v : TaggedValue) : Except DecodeError BranchEntry := do
  let key ← KeyHeader.read v
  let localKey ← slice v.data key.localOffset key.localSize.toNat .branchKey
  let child ← readU32 v.data key.endOffset .branchChild
  return { key, localKey, child := ⟨child⟩ }

end Ese
