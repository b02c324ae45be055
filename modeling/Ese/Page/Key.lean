import Ese.Page.Entry
/-!
Keys rebuilt from an entry and the external key of its page. A key has at most eight bytes: shared
bytes first, then the entry's own, each part filled up with zeros where its source is too short.
-/

namespace Ese

structure Key where
  bytes : Bytes
  /-- Where the payload of the entry starts. -/
  endOffset : Nat
  deriving DecidableEq, Repr

namespace Key

def maxLength : Nat := 8

/-- The first `n` bytes, extended with zeros. -/
def padTo (n : Nat) (bytes : Bytes) : Bytes :=
  bytes.take n ++ List.replicate (n - bytes.length) 0

def sharedLength (h : KeyHeader) : Nat :=
  match h.commonSize with
  | some size => min size.toNat maxLength
  | none => 0

/-- Shared bytes leave this much room for the entry's own. -/
def ownLength (h : KeyHeader) : Nat := min h.localSize.toNat (maxLength - sharedLength h)

def rebuild (h : KeyHeader) (data external : Bytes) : Key :=
  { bytes := padTo (sharedLength h) external ++ padTo (ownLength h) (data.drop h.localOffset)
    endOffset := h.endOffset }

def parse (v : TaggedValue) (external : Bytes) : Except DecodeError Key := do
  let header ← KeyHeader.read v
  return rebuild header v.data external

/-- What follows the key; nothing if the entry ends before that. -/
def payload (k : Key) (v : TaggedValue) : Bytes := v.data.drop k.endOffset

end Key

end Ese
