import Mathlib
import Ese.Bytes.LittleEndian
/-!
Little-endian numbers and powers of 256: what a width can hold, and reading back what was written. A
width holds a number in two's complement but for a multiple of its power of 256.
-/

namespace Ese.LittleEndian

theorem decode_lt (bytes : List UInt8) : decode bytes < 256 ^ bytes.length := by
  induction bytes with
  | nil => simp [decode]
  | cons b bs ih =>
    have hb := b.toNat_lt
    simp only [decode, List.length_cons, Nat.pow_succ]
    omega

theorem decode_encode_mod (width n : Nat) : decode (encode width n) = n % 256 ^ width := by
  induction width generalizing n with
  | zero => simp [encode, decode, Nat.mod_one]
  | succ w ih =>
    simp only [encode, decode, ih, UInt8.toNat_ofNat']
    rw [show 256 ^ (w + 1) = 256 * 256 ^ w from Nat.pow_succ', Nat.mod_mul]

/-! Two's complement -/

def encodeInt (width : Nat) (v : Int) : List UInt8 := encode width (v % 256 ^ width).toNat

@[simp] theorem length_encodeInt (width : Nat) (v : Int) : (encodeInt width v).length = width :=
  length_encode width _

/-- The bytes have the number but for a multiple of what they can hold. -/
theorem decode_encodeInt_modEq (width : Nat) (v : Int) :
    decode (encodeInt width v) ≡ v [ZMOD 256 ^ width] := by
  have hpos : (0 : Int) < 256 ^ width := by positivity
  have hnonneg : 0 ≤ v % 256 ^ width := Int.emod_nonneg v hpos.ne'
  rw [encodeInt, decode_encode_mod]
  push_cast
  rw [Int.toNat_of_nonneg hnonneg]
  exact (Int.mod_modEq _ _).trans (Int.mod_modEq v _)

theorem encodeInt_of_modEq {bytes : List UInt8} {width : Nat} {v : Int}
    (hlength : bytes.length = width) (h : v ≡ decode bytes [ZMOD 256 ^ width]) :
    encodeInt width v = bytes := by
  subst hlength
  have hlt : (decode bytes : Int) < 256 ^ bytes.length := by exact_mod_cast decode_lt bytes
  have hmod : v % 256 ^ bytes.length = decode bytes :=
    Eq.trans h (Int.emod_eq_of_lt (Int.natCast_nonneg _) hlt)
  rw [encodeInt, hmod, Int.toNat_natCast, encode_decode]

end Ese.LittleEndian
