import Ese.Bytes.LittleEndian
import Ese.Error
/-!
Bounded reads. Everything the reader decodes comes out of a `ByteSource`: a file image, a page block
or a list of bytes, which all answer as the list they hold. A field is read whole or not at all.
-/

namespace Ese

abbrev Bytes := List UInt8

/-- Bytes that can be read at any offset. A read past the end is short. -/
class ByteSource (α : Type) where
  toBytes : α → Bytes
  size : α → Nat
  read : α → (offset count : Nat) → Bytes
  size_eq : ∀ s, size s = (toBytes s).length
  read_eq : ∀ s offset count, read s offset count = ((toBytes s).drop offset).take count

/-- The bytes of an array from `offset` on, at most `count` of them. -/
def block (b : ByteArray) (offset count : Nat) : ByteArray :=
  b.extract (min offset b.size) (min (offset + count) b.size)

theorem toList_block (b : ByteArray) (offset count : Nat) :
    (block b offset count).data.toList = (b.data.toList.drop offset).take count := by
  have hsize : b.size = b.data.toList.length := rfl
  simp only [block, ByteArray.data_extract, Array.toList_extract, List.extract_eq_take_drop, hsize]
  generalize b.data.toList = l
  by_cases h : offset ≤ l.length
  · rw [Nat.min_eq_left h]
    by_cases h2 : offset + count ≤ l.length
    · rw [Nat.min_eq_left h2]
      congr 1
      omega
    · rw [Nat.min_eq_right (by omega), List.take_of_length_le (by simp),
        List.take_of_length_le (by simp; omega)]
  · rw [Nat.min_eq_right (by omega), List.drop_eq_nil_of_le (by omega),
      List.drop_eq_nil_of_le (by omega)]
    simp

instance : ByteSource Bytes where
  toBytes s := s
  size s := s.length
  read s offset count := (s.drop offset).take count
  size_eq _ := rfl
  read_eq _ _ _ := rfl

instance : ByteSource ByteArray where
  toBytes s := s.data.toList
  size s := s.size
  read s offset count := (block s offset count).data.toList
  size_eq _ := rfl
  read_eq s offset count := toList_block s offset count

variable {α : Type} [ByteSource α]

def addressLimit : Nat := 0x10000000000000000

/-- Exactly `count` bytes at `offset`. -/
def slice (s : α) (offset count : Nat) (part : Part) : Except DecodeError Bytes :=
  if offset + count ≤ ByteSource.size s then .ok (ByteSource.read s offset count)
  else if offset < addressLimit then .error (.truncated part offset count (ByteSource.size s))
  else .error (.fault (.unaddressable offset))

def readNat (s : α) (width offset : Nat) (part : Part) : Except DecodeError Nat :=
  (slice s offset width part).map LittleEndian.decode

def readU8 (s : α) (offset : Nat) (part : Part) : Except DecodeError UInt8 :=
  (readNat s 1 offset part).map UInt8.ofNat

def readU16 (s : α) (offset : Nat) (part : Part) : Except DecodeError UInt16 :=
  (readNat s 2 offset part).map UInt16.ofNat

def readU32 (s : α) (offset : Nat) (part : Part) : Except DecodeError UInt32 :=
  (readNat s 4 offset part).map UInt32.ofNat

def readU64 (s : α) (offset : Nat) (part : Part) : Except DecodeError UInt64 :=
  (readNat s 8 offset part).map UInt64.ofNat

/-- Any source reads as the list it holds. -/
theorem slice_eq_slice_toBytes (s : α) (offset count : Nat) (part : Part) :
    slice s offset count part = slice (ByteSource.toBytes s) offset count part := by
  simp only [slice, ByteSource.size_eq, ByteSource.read_eq]
  rfl

theorem slice_eq_ok_iff {b bytes : Bytes} {offset count : Nat} {part : Part} :
    slice b offset count part = .ok bytes ↔
      offset + count ≤ b.length ∧ bytes = (b.drop offset).take count := by
  by_cases h : offset + count ≤ b.length
  · have hs : slice b offset count part = .ok ((b.drop offset).take count) := if_pos h
    rw [hs]
    exact ⟨fun e => ⟨h, (Except.ok.inj e).symm⟩, fun e => e.2 ▸ rfl⟩
  · have hs : slice b offset count part = if offset < addressLimit then
        .error (.truncated part offset count b.length)
      else .error (.fault (.unaddressable offset)) :=
      if_neg h
    rw [hs]
    refine ⟨fun e => ?_, fun e => absurd e.1 h⟩
    split at e <;> exact absurd e nofun

end Ese
