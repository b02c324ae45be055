import Mathlib
import Ese.Bytes.Source
import Ese.Proofs.LittleEndian
/-!
Segments: where bytes that were written stand, and that a bounded read there gives them back. A
writer that joins its pieces splits into segments, so no later proof counts bytes twice.
-/

namespace Ese

/-- The bytes stand in `r` from `offset` on. -/
def Segment (r : Bytes) (offset : Nat) (bytes : Bytes) : Prop :=
  ∃ pre post, r = pre ++ bytes ++ post ∧ pre.length = offset

namespace Segment

variable {r a b : Bytes} {offset : Nat}

theorem whole (r : Bytes) : Segment r 0 r := ⟨[], [], by simp, rfl⟩

theorem end_le (h : Segment r offset a) : offset + a.length ≤ r.length := by
  obtain ⟨pre, post, rfl, rfl⟩ := h
  simp only [List.length_append]
  omega

theorem left (h : Segment r offset (a ++ b)) : Segment r offset a := by
  obtain ⟨pre, post, rfl, rfl⟩ := h
  exact ⟨pre, b ++ post, by simp, rfl⟩

theorem right (h : Segment r offset (a ++ b)) : Segment r (offset + a.length) b := by
  obtain ⟨pre, post, rfl, rfl⟩ := h
  exact ⟨pre ++ a, post, by simp, by simp⟩

theorem after (h : Segment r offset (a ++ b)) (next : Nat) (hn : next = offset + a.length) :
    Segment r next b := hn ▸ h.right

theorem head {x : UInt8} (h : Segment r offset (x :: a)) : Segment r offset [x] :=
  left (b := a) h

theorem tail {x : UInt8} (h : Segment r offset (x :: a)) : Segment r (offset + 1) a :=
  right (a := [x]) h

theorem take_drop (h : Segment r offset a) : (r.drop offset).take a.length = a := by
  obtain ⟨pre, post, rfl, rfl⟩ := h
  rw [List.append_assoc, List.drop_left, List.take_left]

theorem slice_eq (h : Segment r offset a) (part : Part) {count : Nat} (hc : count = a.length) :
    slice r offset count part = .ok a := by
  subst hc
  exact slice_eq_ok_iff.mpr ⟨h.end_le, h.take_drop.symm⟩

theorem readNat_eq {width n : Nat} (h : Segment r offset (LittleEndian.encode width n))
    (part : Part) : readNat r width offset part = .ok (n % 256 ^ width) := by
  rw [readNat, h.slice_eq part (by simp), Except.map, LittleEndian.decode_encode_mod]

theorem readU8_eq {x : UInt8} (h : Segment r offset [x]) (part : Part) :
    readU8 r offset part = .ok x := by
  have hs : slice r offset 1 part = .ok [x] := h.slice_eq part rfl
  rw [readU8, readNat, hs]
  simp [Except.map, LittleEndian.decode]

theorem readU16_eq {n : Nat} (h : Segment r offset (LittleEndian.encode 2 n)) (part : Part) :
    readU16 r offset part = .ok (UInt16.ofNat n) := by
  rw [readU16, h.readNat_eq part, Except.map]
  congr 1
  apply UInt16.toNat_inj.mp
  simp

theorem readU32_eq {n : Nat} (h : Segment r offset (LittleEndian.encode 4 n)) (part : Part) :
    readU32 r offset part = .ok (UInt32.ofNat n) := by
  rw [readU32, h.readNat_eq part, Except.map]
  congr 1
  apply UInt32.toNat_inj.mp
  simp

end Segment

end Ese
