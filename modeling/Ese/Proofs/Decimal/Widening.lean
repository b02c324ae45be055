import Mathlib
import Ese.Decimal.Binary
/-!
Widening is exact. A single-precision number and the double-precision number made of it have one
sign and are of one kind, and if they are finite they are the same number: the bits of the fraction
move up, and a fraction without a leading bit gets one with the exponent to match.
-/

namespace Ese.Decimal

def Binary.value (b : Binary) : ℚ := b.significand * 2 ^ b.exponent

theorem Binary.value_eq_value {a b : Binary} {shift : Nat}
    (hsignificand : a.significand = b.significand * 2 ^ shift)
    (hexponent : b.exponent = a.exponent + shift) : a.value = b.value := by
  rw [value, value, hsignificand, hexponent, Nat.cast_mul, Nat.cast_pow, Nat.cast_ofNat, mul_assoc,
    ← zpow_natCast, ← zpow_add₀ two_ne_zero, add_comm (shift : ℤ)]

/-- The numbers are the same, whatever their neighbours are. -/
inductive Magnitude.Same : Magnitude → Magnitude → Prop
  | nan : Same .nan .nan
  | infinite : Same .infinite .infinite
  | zero : Same .zero .zero
  | finite {a b : Binary} : a.value = b.value → Same (.finite a) (.finite b)

theorem Magnitude.Same.nan_iff {a b : Magnitude} (h : a.Same b) : a = .nan ↔ b = .nan := by
  cases h with
  | nan => exact iff_of_true rfl rfl
  | infinite | zero | finite => exact iff_of_false nofun nofun

/-- A single-precision number without its sign, by its own fields. -/
def singleMagnitude (bits : UInt32) : Magnitude :=
  let exponent := (bits >>> 23).toNat % 256
  let fraction := bits.toNat % singleFractions
  if exponent = 255 then (if fraction = 0 then .infinite else .nan)
  else if exponent = 0 then (if fraction = 0 then .zero else .finite ⟨fraction, -149, false⟩)
  else .finite ⟨fraction + singleFractions, exponent - 150, fraction = 0 && exponent > 1⟩

theorem isNan_iff {bits : UInt64} : isNan bits ↔ magnitude bits = .nan := by
  unfold isNan
  split <;> simp_all

def ofFields (exponent fraction : Nat) : Magnitude :=
  if exponent = 2047 then (if fraction = 0 then .infinite else .nan)
  else if exponent = 0 then (if fraction = 0 then .zero else .finite ⟨fraction, -1074, false⟩)
  else .finite ⟨fraction + fractions, exponent - 1075, fraction = 0 && exponent > 1⟩

theorem magnitude_eq (bits : UInt64) :
    magnitude bits = ofFields ((bits >>> 52).toNat % 2048) (bits.toNat % fractions) := rfl

theorem ofFields_normal {exponent : Nat} (hpos : 0 < exponent) (hlt : exponent < 2047)
    (fraction : Nat) : ofFields exponent fraction =
      .finite ⟨fraction + fractions, exponent - 1075, fraction = 0 && exponent > 1⟩ := by
  rw [ofFields, if_neg hlt.ne, if_neg hpos.ne']

/-! The fields of a number that is put together of them -/

theorem exponent_eq_div (bits : UInt64) : (bits >>> 52).toNat = bits.toNat / fractions := by
  rw [UInt64.toNat_shiftRight]
  exact Nat.shiftRight_eq_div_pow bits.toNat 52

theorem sign_eq_div (bits : UInt64) : (bits >>> 63).toNat = bits.toNat / (2048 * fractions) := by
  rw [UInt64.toNat_shiftRight]
  exact Nat.shiftRight_eq_div_pow bits.toNat 63

section Fields

variable {sign exponent fraction : Nat}

theorem toNat_packed (hsign : sign = 0 ∨ sign = 2048) (hexponent : exponent < 2048)
    (hfraction : fraction < fractions) :
    (UInt64.ofNat ((sign + exponent) * fractions + fraction)).toNat =
      (sign + exponent) * fractions + fraction := by
  unfold fractions at *
  exact UInt64.toNat_ofNat_of_lt' (by rw [UInt64.size]; omega)

theorem isNegative_packed (hsign : sign = 0 ∨ sign = 2048) (hexponent : exponent < 2048)
    (hfraction : fraction < fractions) :
    isNegative (UInt64.ofNat ((sign + exponent) * fractions + fraction)) = (sign != 0) := by
  rw [isNegative, Bool.eq_iff_iff, bne_iff_ne, bne_iff_ne, ne_eq, ne_eq, ← UInt64.toNat_inj,
    sign_eq_div, toNat_packed hsign hexponent hfraction, UInt64.toNat_zero]
  unfold fractions at *
  omega

theorem magnitude_packed (hsign : sign = 0 ∨ sign = 2048) (hexponent : exponent < 2048)
    (hfraction : fraction < fractions) :
    magnitude (UInt64.ofNat ((sign + exponent) * fractions + fraction)) =
      ofFields exponent fraction := by
  have hbits := toNat_packed hsign hexponent hfraction
  have hexp : (UInt64.ofNat ((sign + exponent) * fractions + fraction) >>> 52).toNat % 2048 =
      exponent := by
    rw [exponent_eq_div, hbits]
    unfold fractions at *
    omega
  have hfrac : (UInt64.ofNat ((sign + exponent) * fractions + fraction)).toNat % fractions =
      fraction := by
    rw [hbits, Nat.mul_add_mod', Nat.mod_eq_of_lt hfraction]
  rw [magnitude_eq, hexp, hfrac]

end Fields

/-! Single precision -/

/-- The leading bit of a fraction without one falls off at the top. -/
theorem shifted_add_fractions {fraction : Nat} (hpos : fraction ≠ 0)
    (hlt : fraction < singleFractions) :
    ((fraction - 1 <<< fraction.log2) <<< (52 - fraction.log2)) + fractions =
      fraction * 2 ^ (52 - fraction.log2) := by
  have htop : fraction.log2 < 23 := (Nat.log2_lt hpos).mpr hlt
  have hle : 2 ^ fraction.log2 ≤ fraction := Nat.log2_self_le hpos
  have hsplit : fractions = 2 ^ fraction.log2 * 2 ^ (52 - fraction.log2) := by
    rw [← pow_add, Nat.add_sub_cancel' (by omega)]
    rfl
  rw [Nat.shiftLeft_eq, Nat.shiftLeft_eq, one_mul, hsplit, ← Nat.add_mul, Nat.sub_add_cancel hle]

theorem shifted_lt_fractions {fraction : Nat} (hpos : fraction ≠ 0)
    (hlt : fraction < singleFractions) :
    (fraction - 1 <<< fraction.log2) <<< (52 - fraction.log2) < fractions := by
  have htop : fraction.log2 < 23 := (Nat.log2_lt hpos).mpr hlt
  have hsum := shifted_add_fractions hpos hlt
  have hbound : fraction * 2 ^ (52 - fraction.log2) < 2 * fractions :=
    calc fraction * 2 ^ (52 - fraction.log2)
        < 2 ^ (fraction.log2 + 1) * 2 ^ (52 - fraction.log2) :=
          Nat.mul_lt_mul_of_pos_right Nat.lt_log2_self (Nat.two_pow_pos _)
      _ = 2 * fractions := by
          rw [← pow_add, show fraction.log2 + 1 + (52 - fraction.log2) = 53 by omega]
          rfl
  omega

theorem same_subnormal {fraction : Nat} (hpos : fraction ≠ 0) (hlt : fraction < singleFractions) :
    (ofFields (874 + fraction.log2)
      ((fraction - 1 <<< fraction.log2) <<< (52 - fraction.log2))).Same
      (.finite ⟨fraction, -149, false⟩) := by
  have htop : fraction.log2 < 23 := (Nat.log2_lt hpos).mpr hlt
  rw [ofFields_normal (by omega) (by omega)]
  refine .finite (Binary.value_eq_value (shifted_add_fractions hpos hlt) ?_)
  dsimp only
  omega

theorem same_normal {exponent : Nat} (hlt : exponent < 255) (fraction : Nat) (tight : Bool) :
    (ofFields (exponent + 896) (fraction <<< 29)).Same
      (.finite ⟨fraction + singleFractions, exponent - 150, tight⟩) := by
  have hsum : fraction <<< 29 + fractions = (fraction + singleFractions) * 2 ^ 29 := by
    rw [Nat.shiftLeft_eq]
    unfold fractions singleFractions
    omega
  rw [ofFields_normal (by omega) (by omega)]
  refine .finite (Binary.value_eq_value hsum ?_)
  dsimp only
  omega

theorem same_nan (fraction : Nat) :
    (ofFields 2047 (fraction <<< 29 ||| fractions / 2)).Same .nan := by
  have hquiet : fraction <<< 29 ||| fractions / 2 ≠ 0 := by simp [fractions]
  rw [ofFields, if_pos rfl, if_neg hquiet]
  exact .nan

theorem shiftLeft_lt_fractions {fraction : Nat} (hlt : fraction < singleFractions) :
    fraction <<< 29 < fractions := by
  rw [Nat.shiftLeft_eq]
  unfold singleFractions fractions at *
  omega

/-- Widening puts fields together that stand for the number of the single. -/
theorem widen_eq (bits : UInt32) : ∃ exponent fraction,
    exponent < 2048 ∧ fraction < fractions ∧
    widen bits =
      UInt64.ofNat (((if bits >>> 31 = 0 then 0 else 2048) + exponent) * fractions + fraction) ∧
    (ofFields exponent fraction).Same (singleMagnitude bits) := by
  have hfraction : bits.toNat % singleFractions < singleFractions := Nat.mod_lt _ (by decide)
  have hexponent : (bits >>> 23).toNat % 256 < 256 := Nat.mod_lt _ (by decide)
  unfold widen singleMagnitude
  dsimp only
  generalize bits.toNat % singleFractions = fraction at hfraction
  generalize (bits >>> 23).toNat % 256 = exponent at hexponent
  have hshift := shiftLeft_lt_fractions hfraction
  by_cases hall : exponent = 255
  · rw [if_pos hall, if_pos hall]
    by_cases hzero : fraction = 0
    · rw [if_pos hzero, if_pos hzero]
      exact ⟨_, _, by decide, by decide, rfl, .infinite⟩
    · rw [if_neg hzero, if_neg hzero]
      have hlt : fraction <<< 29 ||| fractions / 2 < fractions :=
        Nat.or_lt_two_pow (n := 52) hshift (by decide)
      exact ⟨_, _, by decide, hlt, rfl, same_nan fraction⟩
  rw [if_neg hall, if_neg hall]
  by_cases hnone : exponent = 0
  · rw [if_pos hnone, if_pos hnone]
    by_cases hzero : fraction = 0
    · rw [if_pos hzero, if_pos hzero]
      exact ⟨_, _, by decide, by decide, rfl, .zero⟩
    · rw [if_neg hzero, if_neg hzero]
      have htop : fraction.log2 < 23 := (Nat.log2_lt hzero).mpr hfraction
      exact ⟨_, _, by omega, shifted_lt_fractions hzero hfraction, rfl,
        same_subnormal hzero hfraction⟩
  · rw [if_neg hnone, if_neg hnone]
    exact ⟨_, _, by omega, hshift, rfl, same_normal (by omega) fraction _⟩

/-- Widening keeps the sign and the number, and a number that is none stays one. -/
theorem widen_exact (bits : UInt32) :
    isNegative (widen bits) = (bits >>> 31 != 0) ∧
      (magnitude (widen bits)).Same (singleMagnitude bits) ∧
      (isNan (widen bits) ↔ singleMagnitude bits = .nan) := by
  obtain ⟨exponent, fraction, hexponent, hfraction, hwiden, hsame⟩ := widen_eq bits
  have hsign : (if bits >>> 31 = 0 then 0 else 2048) = 0 ∨
      (if bits >>> 31 = 0 then 0 else 2048) = 2048 := by
    split
    · exact .inl rfl
    · exact .inr rfl
  have hmagnitude : magnitude (widen bits) = ofFields exponent fraction := by
    rw [hwiden, magnitude_packed hsign hexponent hfraction]
  refine ⟨?_, hmagnitude ▸ hsame, ?_⟩
  · rw [hwiden, isNegative_packed hsign hexponent hfraction, Bool.eq_iff_iff, bne_iff_ne,
      bne_iff_ne]
    split <;> simp_all
  · rw [isNan_iff, hmagnitude]
    exact hsame.nan_iff

end Ese.Decimal
