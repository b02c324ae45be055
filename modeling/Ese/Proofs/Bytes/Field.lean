import Mathlib
/-!
Fields that share a word. Masks, marks and shifts of 16-bit and 8-bit fields as arithmetic, so that
what was packed into a word is read off it by division.
-/

namespace Ese.Field

theorem and_pow (n k : Nat) : n &&& 2 ^ k = n / 2 ^ k % 2 * 2 ^ k := by
  rw [Nat.and_two_pow, Nat.testBit_eq_decide_div_mod_eq]
  rcases Nat.mod_two_eq_zero_or_one (n / 2 ^ k) with h | h <;> simp [h]

/-- A field below `2 ^ k` leaves the bits from `k` on to another one. -/
theorem or_mul_pow {n k : Nat} (m : Nat) (hn : n < 2 ^ k) : n ||| m * 2 ^ k = n + m * 2 ^ k := by
  rw [Nat.or_comm, ← Nat.shiftLeft_eq, ← Nat.shiftLeft_add_eq_or_of_lt hn, Nat.add_comm]

section UInt16

theorem toNat_ofNat {n : Nat} (hn : n < 0x10000) : (UInt16.ofNat n).toNat = n :=
  UInt16.toNat_ofNat_of_lt' hn

variable (x : UInt16)

theorem low13 : (x &&& 0x1FFF).toNat = x.toNat % 0x2000 := by
  rw [UInt16.toNat_and]
  exact Nat.and_two_pow_sub_one_eq_mod x.toNat 13

theorem low15 : (x &&& 0x7FFF).toNat = x.toNat % 0x8000 := by
  rw [UInt16.toNat_and]
  exact Nat.and_two_pow_sub_one_eq_mod x.toNat 15

theorem high3 : (x >>> 13).toNat = x.toNat / 0x2000 := by
  rw [UInt16.toNat_shiftRight]
  exact Nat.shiftRight_eq_div_pow x.toNat 13

theorem bit14 : (x &&& 0x4000 != 0) = decide (x.toNat / 0x4000 % 2 = 1) := by
  have h : (x &&& 0x4000).toNat = x.toNat / 0x4000 % 2 * 0x4000 := by
    rw [UInt16.toNat_and]
    exact and_pow x.toNat 14
  rw [Bool.eq_iff_iff, bne_iff_ne, decide_eq_true_eq, ne_eq, ← UInt16.toNat_inj, h,
    UInt16.toNat_zero]
  omega

theorem bit15 : (x &&& 0x8000 != 0) = decide (x.toNat / 0x8000 % 2 = 1) := by
  have h : (x &&& 0x8000).toNat = x.toNat / 0x8000 % 2 * 0x8000 := by
    rw [UInt16.toNat_and]
    exact and_pow x.toNat 15
  rw [Bool.eq_iff_iff, bne_iff_ne, decide_eq_true_eq, ne_eq, ← UInt16.toNat_inj, h,
    UInt16.toNat_zero]
  omega

theorem mark14 {n : Nat} (hn : n < 0x4000) : (UInt16.ofNat n ||| 0x4000).toNat = n + 0x4000 := by
  rw [UInt16.toNat_or, toNat_ofNat (by omega)]
  exact or_mul_pow (k := 14) 1 hn

theorem mark15 {n : Nat} (hn : n < 0x8000) : (UInt16.ofNat n ||| 0x8000).toNat = n + 0x8000 := by
  rw [UInt16.toNat_or, toNat_ofNat (by omega)]
  exact or_mul_pow (k := 15) 1 hn

/-- Three flag bits above a 13-bit number. -/
theorem pack13 {n : Nat} {f : UInt8} (hn : n < 0x2000) (hf : f.toNat < 8) :
    (UInt16.ofNat n ||| (f.toUInt16 <<< 13)).toNat = n + f.toNat * 0x2000 := by
  have hs : (f.toUInt16 <<< 13).toNat = f.toNat * 2 ^ 13 := by
    rw [UInt16.toNat_shiftLeft, UInt8.toNat_toUInt16]
    change f.toNat <<< 13 % 2 ^ 16 = _
    rw [Nat.shiftLeft_eq, Nat.mod_eq_of_lt (by omega)]
  rw [UInt16.toNat_or, toNat_ofNat (by omega), hs]
  exact or_mul_pow (k := 13) f.toNat hn

end UInt16

section UInt8

theorem toNat_ofNat8 {n : Nat} (hn : n < 0x100) : (UInt8.ofNat n).toNat = n :=
  UInt8.toNat_ofNat_of_lt' hn

variable (x : UInt8)

theorem low5 : (x &&& 0x1F).toNat = x.toNat % 0x20 := by
  rw [UInt8.toNat_and]
  exact Nat.and_two_pow_sub_one_eq_mod x.toNat 5

theorem low7 : (x &&& 0x7F).toNat = x.toNat % 0x80 := by
  rw [UInt8.toNat_and]
  exact Nat.and_two_pow_sub_one_eq_mod x.toNat 7

theorem top3 : (x >>> 5).toNat = x.toNat / 0x20 := by
  rw [UInt8.toNat_shiftRight]
  exact Nat.shiftRight_eq_div_pow x.toNat 5

theorem pack5 {x f : UInt8} (hx : x.toNat < 0x20) (hf : f.toNat < 8) :
    (x ||| (f <<< 5)).toNat = x.toNat + f.toNat * 0x20 := by
  have hs : (f <<< 5).toNat = f.toNat * 2 ^ 5 := by
    rw [UInt8.toNat_shiftLeft]
    change f.toNat <<< 5 % 2 ^ 8 = _
    rw [Nat.shiftLeft_eq, Nat.mod_eq_of_lt (by omega)]
  rw [UInt8.toNat_or, hs]
  exact or_mul_pow (k := 5) f.toNat hx

end UInt8

end Ese.Field
