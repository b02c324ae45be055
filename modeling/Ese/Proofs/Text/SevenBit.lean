import Mathlib
import Ese.Build.Sample
import Ese.Proofs.Catalog.RoundTrip
import Ese.Proofs.LittleEndian
import Ese.Proofs.Machine.Text
/-!
Seven-bit text as digits. The packed bytes, read as one little-endian number, are that number in
base 256, and the characters are its digits in base 128. The pending bits of either loop are the
low part of a number of which the bytes still to come are the high part, so a step of the loop takes
one digit off and the rest of the number stays.
-/

namespace Ese.Text.SevenBit

open LittleEndian (decode)

/-- Bit `j` of the bytes, low bits first. Past the end there are no ones. -/
def bitAt (bytes : List UInt8) (j : Nat) : Bool := (bytes.getD (j / 8) 0).toNat.testBit (j % 8)

def group (bytes : List UInt8) (i : Nat) : Nat :=
  Nat.ofBits fun k : Fin 7 => bitAt bytes (7 * i + k)

/-- The groups that the bytes have all seven bits of. -/
def groups (bytes : List UInt8) : List Nat :=
  (List.range (8 * bytes.length / 7)).map (group bytes)

/-- The bytes that hold the first `n` bits of others, with every other bit clear. -/
structure IsPrefix (bytes : List UInt8) (n : Nat) (first : List UInt8) : Prop where
  within : n ≤ 8 * bytes.length
  length_eq : first.length = (n + 7) / 8
  bitAt_eq : ∀ j, bitAt first j = (decide (j < n) && bitAt bytes j)

def digits : Nat → Nat → List Nat
  | 0, _ => []
  | n + 1, v => v % 128 :: digits n (v / 128)

/-- The number whose base 128 digits are the low seven bits of each byte. -/
def value (bytes : List UInt8) : Nat := Nat.ofDigits 128 (bytes.map fun b => (b &&& 0x7F).toNat)

section Digits

@[simp] theorem length_digits (n v : Nat) : (digits n v).length = n := by
  induction n generalizing v with
  | zero => rfl
  | succ n ih => rw [digits, List.length_cons, ih]

theorem lt_of_mem_digits {n v d : Nat} (h : d ∈ digits n v) : d < 128 := by
  induction n generalizing v with
  | zero => cases h
  | succ n ih =>
    rcases List.mem_cons.mp h with rfl | h
    · exact Nat.mod_lt _ (by decide)
    · exact ih h

theorem digits_eq_map (n v : Nat) :
    digits n v = (List.range n).map fun i => v / 2 ^ (7 * i) % 2 ^ 7 := by
  induction n generalizing v with
  | zero => rfl
  | succ n ih =>
    rw [digits, ih, List.range_succ_eq_map, List.map_cons, List.map_map, Nat.mul_zero, pow_zero,
      Nat.div_one]
    refine congrArg _ (List.map_congr_left fun i _ => ?_)
    rw [Function.comp_apply, Nat.mul_succ, Nat.add_comm, pow_add, Nat.div_div_eq_div_mul]
    rfl

theorem take_digits {k n : Nat} (h : k ≤ n) (v : Nat) : (digits n v).take k = digits k v := by
  rw [digits_eq_map, digits_eq_map, ← List.map_take, List.take_range, Nat.min_eq_left h]

theorem ofDigits_digits (n v : Nat) : Nat.ofDigits 128 (digits n v) = v % 2 ^ (7 * n) := by
  induction n generalizing v with
  | zero => rw [Nat.mul_zero, pow_zero, Nat.mod_one]; rfl
  | succ n ih =>
    rw [digits, Nat.ofDigits_cons, ih, Nat.mul_succ, Nat.add_comm (7 * n), pow_add, Nat.mod_mul]
    rfl

/-- Beyond the digits of a number come zeros. -/
theorem digits_ofDigits {ds : List Nat} (hsmall : ∀ d ∈ ds, d < 128) (extra : Nat) :
    digits (ds.length + extra) (Nat.ofDigits 128 ds) = ds ++ List.replicate extra 0 := by
  induction ds with
  | nil =>
    rw [digits_eq_map, Nat.ofDigits_nil]
    simp [List.map_const']
  | cons d ds ih =>
    have hd : d < 128 := hsmall d List.mem_cons_self
    have hlow : (d + 128 * Nat.ofDigits 128 ds) % 128 = d := by omega
    have hhigh : (d + 128 * Nat.ofDigits 128 ds) / 128 = Nat.ofDigits 128 ds := by omega
    rw [Nat.ofDigits_cons, List.length_cons, Nat.add_right_comm, digits, hlow, hhigh,
      ih fun e he => hsmall e (List.mem_cons_of_mem _ he), List.cons_append]

end Digits

section Bits

theorem testBit_decode (bytes : List UInt8) (j : Nat) :
    (decode bytes).testBit j = bitAt bytes j := by
  induction bytes generalizing j with
  | nil => simp [decode, bitAt]
  | cons byte bytes ih =>
    have hnumber : decode (byte :: bytes) = 2 ^ 8 * decode bytes + byte.toNat := Nat.add_comm _ _
    rw [hnumber, Nat.testBit_two_pow_mul_add _ byte.toNat_lt]
    unfold bitAt at ih ⊢
    split
    · rename_i hlow
      rw [Nat.div_eq_of_lt hlow, Nat.mod_eq_of_lt hlow, List.getD_cons_zero]
    · obtain ⟨i, rfl⟩ : ∃ i, j = i + 8 := ⟨j - 8, by omega⟩
      rw [ih, Nat.add_sub_cancel, Nat.add_div_right i (by decide), Nat.add_mod_right,
        List.getD_cons_succ]

theorem group_eq (bytes : List UInt8) (i : Nat) :
    group bytes i = decode bytes / 2 ^ (7 * i) % 2 ^ 7 := by
  rw [group, ← Nat.ofBits_testBit]
  refine congrArg Nat.ofBits (funext fun k => ?_)
  rw [Nat.testBit_div_two_pow, testBit_decode, Nat.add_comm]

theorem groups_eq (bytes : List UInt8) :
    groups bytes = digits (8 * bytes.length / 7) (decode bytes) := by
  rw [digits_eq_map]
  exact List.map_congr_left fun i _ => group_eq bytes i

end Bits

section Unpacking

theorem toNat_lowSeven (acc : UInt16) : (lowSeven acc).toNat = acc.toNat % 128 := by
  rw [lowSeven, UInt16.toNat_and]
  exact Nat.and_two_pow_sub_one_eq_mod acc.toNat 7

theorem lowSeven_eq_zero {acc : UInt16} : lowSeven acc = 0 ↔ acc.toNat % 128 = 0 := by
  rw [← toNat_lowSeven, ← UInt16.toNat_inj]
  rfl

theorem charOf_lowSeven (acc : UInt16) : charOf (lowSeven acc) = Char.ofNat (acc.toNat % 128) := by
  rw [charOf, toNat_lowSeven]

theorem toNat_shiftRight7 (acc : UInt16) : (acc >>> 7).toNat = acc.toNat / 128 := by
  rw [UInt16.toNat_shiftRight]
  exact Nat.shiftRight_eq_div_pow acc.toNat 7

theorem toNat_shiftRight14 (acc : UInt16) : (acc >>> 14).toNat = acc.toNat / 128 / 128 := by
  rw [UInt16.toNat_shiftRight, Nat.div_div_eq_div_mul]
  exact Nat.shiftRight_eq_div_pow acc.toNat 14

def charsOf (ds : List Nat) : List Char := (ds.takeWhile (· ≠ 0)).map Char.ofNat

theorem charsOf_cons (d : Nat) (ds : List Nat) :
    charsOf (d :: ds) = if d = 0 then [] else Char.ofNat d :: charsOf ds := by
  unfold charsOf
  rw [List.takeWhile_cons]
  split <;> simp_all

theorem charsOf_digits_succ (n low high : Nat) :
    charsOf (digits (n + 1) (low + 128 * high)) =
      if low % 128 = 0 then []
      else Char.ofNat (low % 128) :: charsOf (digits n (low / 128 + high)) := by
  rw [digits, charsOf_cons, Nat.add_mul_mod_self_left, Nat.add_mul_div_left _ _ (by decide)]

/-- A byte goes above the pending bits, and the next one goes above both. -/
theorem toNat_pushByte {acc : UInt16} (byte : UInt8) {pending : Nat} (h : pending ≤ 6)
    (hacc : acc.toNat < 2 ^ pending) :
    (acc ||| (byte.toUInt16 <<< UInt16.ofNat pending)).toNat < 128 * 2 ^ (pending + 1) ∧
      ∀ bytes, acc.toNat + 2 ^ pending * decode (byte :: bytes) =
        (acc ||| (byte.toUInt16 <<< UInt16.ofNat pending)).toNat +
          128 * (2 ^ (pending + 1) * decode bytes) := by
  rw [← Machine.or_shifted acc byte h, Field.or_mul_pow _ hacc]
  constructor
  · have hbyte := Nat.mul_le_mul_right (2 ^ pending) (Nat.le_of_lt_succ byte.toNat_lt)
    rw [pow_succ]
    omega
  · intro bytes
    rw [decode, pow_succ]
    ring

/-- The pending bits and the bytes to come are one number, and its whole digits are unpacked. -/
theorem unpackFrom_eq (bytes : List UInt8) (acc : UInt16) {pending : Nat} (h : pending ≤ 6)
    (hacc : acc.toNat < 2 ^ pending) :
    unpackFrom acc pending bytes =
      charsOf (digits ((pending + 8 * bytes.length) / 7)
        (acc.toNat + 2 ^ pending * decode bytes)) := by
  induction bytes generalizing acc pending with
  | nil =>
    rw [List.length_nil, Nat.mul_zero, Nat.add_zero, Nat.div_eq_of_lt (by omega)]
    rfl
  | cons byte bytes ih =>
    obtain ⟨hroom, hnumber⟩ := toNat_pushByte byte h hacc
    have hcount : (pending + 8 * (byte :: bytes).length) / 7 =
        (pending + 1 + 8 * bytes.length) / 7 + 1 := by
      rw [List.length_cons]
      omega
    rw [hnumber, hcount, charsOf_digits_succ, unpackFrom]
    dsimp only
    generalize acc ||| (byte.toUInt16 <<< UInt16.ofNat pending) = acc at hroom ⊢
    simp only [lowSeven_eq_zero, charOf_lowSeven]
    refine if_congr Iff.rfl rfl ?_
    by_cases hfew : pending < 6
    · rw [if_pos hfew, ih _ (by omega) (by rw [toNat_shiftRight7]; omega), toNat_shiftRight7]
    -- after six bits the byte completes a second character, and nothing stays pending
    obtain rfl : pending = 6 := by omega
    have hcount : (6 + 1 + 8 * bytes.length) / 7 = 8 * bytes.length / 7 + 1 := by omega
    have hnone : (acc >>> 14).toNat = 0 := by rw [toNat_shiftRight14]; omega
    rw [if_neg hfew, hcount, show 2 ^ (6 + 1) = 128 from rfl, charsOf_digits_succ,
      toNat_shiftRight7, ih _ (Nat.zero_le 6) (by rw [hnone]; decide), hnone]
    have hdone : acc.toNat / 128 / 128 = 0 := by rw [← toNat_shiftRight14, hnone]
    simp only [hdone, pow_zero, Nat.one_mul, Nat.zero_add]
    split <;> rfl

theorem unpack_eq (bytes : List UInt8) : unpack bytes = charsOf (groups bytes) := by
  rw [unpack, unpackFrom_eq bytes 0 (Nat.zero_le 6) (by decide), groups_eq]
  simp

end Unpacking

section Packing

theorem value_cons (b : UInt8) (bytes : List UInt8) :
    value (b :: bytes) = (b &&& 0x7F).toNat + 128 * value bytes := by
  rw [value, List.map_cons, Nat.ofDigits_cons]
  rfl

/-- Seven bits above the pending ones, which are at most seven. -/
theorem toNat_pushSeven {acc : UInt32} (b : UInt8) {pending : Nat} (h : pending ≤ 7)
    (hacc : acc.toNat < 2 ^ pending) :
    (acc ||| ((b &&& 0x7F).toUInt32 <<< UInt32.ofNat pending)).toNat =
      acc.toNat + (b &&& 0x7F).toNat * 2 ^ pending := by
  have hshift : (UInt32.ofNat pending).toNat % 32 = pending := by
    rw [UInt32.toNat_ofNat_of_lt' (lt_of_le_of_lt h (by decide))]
    omega
  have hroom : (b &&& 0x7F).toNat * 2 ^ pending < 2 ^ 32 := calc
    _ ≤ 127 * 2 ^ 7 := Nat.mul_le_mul (by rw [Field.low7]; omega)
      (Nat.pow_le_pow_right (by decide) h)
    _ < 2 ^ 32 := by decide
  rw [UInt32.toNat_or, UInt32.toNat_shiftLeft, hshift, Nat.shiftLeft_eq, UInt8.toNat_toUInt32,
    Nat.mod_eq_of_lt hroom, Field.or_mul_pow _ hacc]

theorem toNat_shiftRight8 (acc : UInt32) : (acc >>> 8).toNat = acc.toNat / 256 := by
  rw [UInt32.toNat_shiftRight]
  exact Nat.shiftRight_eq_div_pow acc.toNat 8

/-- The bytes written are the pending bits with the digits to come above them. -/
theorem decode_packFrom (bytes : List UInt8) (acc : UInt32) {pending : Nat} (h : pending ≤ 7)
    (hacc : acc.toNat < 2 ^ pending) :
    decode (packFrom acc pending bytes) = acc.toNat + 2 ^ pending * value bytes ∧
      (packFrom acc pending bytes).length = (pending + 7 * bytes.length + 7) / 8 := by
  induction bytes generalizing acc pending with
  | nil =>
    rw [packFrom, value, List.map_nil, Nat.ofDigits_nil, List.length_nil]
    split
    · simp_all [decode]
    · have hsmall : acc.toNat < 2 ^ 7 := hacc.trans_le (Nat.pow_le_pow_right (by decide) h)
      constructor
      · rw [decode, decode, UInt32.toNat_toUInt8]
        omega
      · rw [List.length_singleton]
        omega
  | cons b bytes ih =>
    have hpushed := toNat_pushSeven b h hacc
    have hseven : (b &&& 0x7F).toNat < 128 := by rw [Field.low7]; omega
    rw [packFrom, value_cons, List.length_cons]
    generalize acc ||| ((b &&& 0x7F).toUInt32 <<< UInt32.ofNat pending) = pushed at hpushed ⊢
    split
    · obtain rfl : pending = 0 := by omega
      rw [pow_zero] at hacc hpushed ⊢
      obtain ⟨hdecode, hlength⟩ := ih pushed (show 7 ≤ 7 from Nat.le_refl 7) (by omega)
      rw [Nat.zero_add, hdecode, hlength, hpushed]
      omega
    · obtain ⟨spare, rfl⟩ : ∃ spare, pending = spare + 1 := ⟨pending - 1, by omega⟩
      have hroom : pushed.toNat < 256 * 2 ^ spare := by
        have hbits := Nat.mul_le_mul_right (2 ^ (spare + 1)) (Nat.le_of_lt_succ hseven)
        rw [pow_succ] at hacc hpushed hbits
        omega
      obtain ⟨hdecode, hlength⟩ := ih (pushed >>> 8) (show spare ≤ 7 by omega)
        (by rw [toNat_shiftRight8]; omega)
      rw [Nat.add_sub_cancel, decode, hdecode, List.length_cons, hlength, UInt32.toNat_toUInt8,
        toNat_shiftRight8]
      constructor
      · have hpieces := Nat.mod_add_div pushed.toNat 256
        rw [pow_succ] at hpushed ⊢
        linear_combination hpieces + hpushed
      · omega

theorem decode_pack (bytes : List UInt8) : decode (pack bytes) = value bytes := by
  simpa [pack] using (decode_packFrom bytes 0 (Nat.zero_le 7) (by decide)).1

theorem length_pack (bytes : List UInt8) : (pack bytes).length = (7 * bytes.length + 7) / 8 := by
  simpa [pack] using (decode_packFrom bytes 0 (Nat.zero_le 7) (by decide)).2

end Packing

section RoundTrips

theorem charsOf_append_zeros (ds : List Nat) (extra : Nat) :
    charsOf (ds ++ List.replicate extra 0) = charsOf ds := by
  induction ds with
  | nil => cases extra <;> rfl
  | cons d ds ih => rw [List.cons_append, charsOf_cons, charsOf_cons, ih]

/-- A cut list of digits is a stretch of them from the first on. -/
theorem charsOf_eq_take (ds : List Nat) :
    charsOf ds = (ds.take (charsOf ds).length).map Char.ofNat ∧
      (charsOf ds).length ≤ ds.length := by
  have hprefix := List.takeWhile_prefix (l := ds) (· ≠ 0)
  rw [charsOf, List.length_map]
  exact ⟨congrArg _ (List.prefix_iff_eq_take.mp hprefix), hprefix.length_le⟩

/-- A spare group at the end of the packed form is zero, so it is not taken for a character. -/
theorem unpack_pack (bytes : List UInt8) :
    unpack (pack bytes) =
      ((bytes.map (· &&& 0x7F)).takeWhile (· ≠ 0)).map fun b => Char.ofNat b.toNat := by
  have hsmall : ∀ d ∈ bytes.map fun b => (b &&& 0x7F).toNat, d < 128 := by
    intro d hd
    obtain ⟨b, -, rfl⟩ := List.mem_map.mp hd
    rw [Field.low7]
    exact Nat.mod_lt _ (by decide)
  obtain ⟨extra, hextra⟩ : ∃ extra, 8 * ((7 * bytes.length + 7) / 8) / 7 = bytes.length + extra :=
    Nat.exists_eq_add_of_le (by omega)
  have hdigits := digits_ofDigits hsmall extra
  rw [List.length_map] at hdigits
  rw [unpack_eq, groups_eq, length_pack, decode_pack, hextra, value, hdigits, charsOf_append_zeros,
    charsOf, List.takeWhile_map, List.takeWhile_map, List.map_map, List.map_map]
  have hzero : ∀ b : UInt8, (b &&& 0x7F).toNat = 0 ↔ b &&& 0x7F = 0 := fun b => by
    rw [← UInt8.toNat_inj]
    rfl
  simp only [Function.comp_def, ne_eq, hzero]

/-- Digits that were unpacked are packed as they were. -/
theorem value_digits (k v : Nat) :
    value ((digits k v).map UInt8.ofNat) = v % 2 ^ (7 * k) := by
  have hsame : (digits k v).map (fun d => (UInt8.ofNat d &&& 0x7F).toNat) = digits k v := by
    refine (List.map_congr_left fun d hd => ?_).trans (List.map_id' _)
    have hsmall := lt_of_mem_digits hd
    rw [Field.low7, Field.toNat_ofNat8 (by omega), Nat.mod_eq_of_lt hsmall]
  rw [← ofDigits_digits, value, List.map_map]
  exact congrArg _ hsame

theorem isPrefix_pack_digits {bytes : List UInt8} {k : Nat} (h : 7 * k ≤ 8 * bytes.length) :
    IsPrefix bytes (7 * k) (pack ((digits k (decode bytes)).map UInt8.ofNat)) where
  within := h
  length_eq := by rw [length_pack, List.length_map, length_digits]
  bitAt_eq j := by
    rw [← testBit_decode, ← testBit_decode, decode_pack, value_digits, Nat.testBit_mod_two_pow]

end RoundTrips

end SevenBit

theorem toList_unpackSevenBit (bytes : List UInt8) :
    (unpackSevenBit bytes).toList = SevenBit.unpack bytes := String.toList_ofList

theorem toList_unpackSevenBit_pack (text : String) :
    (unpackSevenBit (Build.packSevenBit text)).toList =
      (((Build.utf8 text).map (· &&& 0x7F)).takeWhile (· ≠ 0)).map fun b => Char.ofNat b.toNat := by
  rw [toList_unpackSevenBit, Build.packSevenBit, SevenBit.unpack_pack]

theorem unpackSevenBit_pack {text : String} (h : ∀ c ∈ text.toList, c ≠ '\x00' ∧ c.toNat < 0x80) :
    unpackSevenBit (Build.packSevenBit text) = text := by
  have hutf8 := utf8_of_ascii fun c hc => (h c hc).2
  have hcode : ∀ c ∈ text.toList, (UInt8.ofNat c.toNat).toNat = c.toNat := fun c hc =>
    Field.toNat_ofNat8 ((h c hc).2.trans (by decide))
  have hbyte : ∀ b ∈ Build.utf8 text, b &&& 0x7F = b ∧ b ≠ 0 := by
    intro b hb
    rw [hutf8] at hb
    obtain ⟨c, hc, rfl⟩ := List.mem_map.mp hb
    constructor
    · rw [← UInt8.toNat_inj, Field.low7, hcode c hc, Nat.mod_eq_of_lt (h c hc).2]
    · intro hzero
      refine (h c hc).1 (Char.toNat_inj.mp ?_)
      rw [← hcode c hc, hzero]
      rfl
  have hmask : (Build.utf8 text).map (· &&& 0x7F) = Build.utf8 text :=
    (List.map_congr_left fun b hb => (hbyte b hb).1).trans (List.map_id' _)
  have hwhole : (Build.utf8 text).takeWhile (· ≠ 0) = Build.utf8 text :=
    List.takeWhile_eq_self_iff.mpr fun b hb => decide_eq_true (hbyte b hb).2
  apply String.toList_injective
  rw [toList_unpackSevenBit_pack, hmask, hwhole, hutf8, List.map_map]
  refine (List.map_congr_left fun c hc => ?_).trans (List.map_id' _)
  rw [Function.comp_apply, hcode c hc, Char.ofNat_toNat]

/-- Characters below 128 are their own bytes. -/
theorem utf8_of_codes {text : String} {codes : List Nat} (hsmall : ∀ d ∈ codes, d < 128)
    (h : text.toList = codes.map Char.ofNat) : Build.utf8 text = codes.map UInt8.ofNat := by
  have hcode : ∀ d ∈ codes, (Char.ofNat d).toNat = d := fun d hd => by
    rw [Char.toNat_ofNat, if_pos (Or.inl ((hsmall d hd).trans (by decide)))]
  have hascii : ∀ c ∈ text.toList, c.toNat < 0x80 := by
    intro c hc
    rw [h] at hc
    obtain ⟨d, hd, rfl⟩ := List.mem_map.mp hc
    rw [hcode d hd]
    exact hsmall d hd
  rw [utf8_of_ascii hascii, h, List.map_map]
  exact List.map_congr_left fun d hd => by rw [Function.comp_apply, hcode d hd]

/-- Unpacked characters are ASCII, so packing them again gives the bits they came from. -/
theorem isPrefix_packSevenBit (bytes : List UInt8) :
    SevenBit.IsPrefix bytes (7 * (unpackSevenBit bytes).length)
      (Build.packSevenBit (unpackSevenBit bytes)) := by
  obtain ⟨hchars, hcount⟩ := SevenBit.charsOf_eq_take (SevenBit.groups bytes)
  rw [← SevenBit.unpack_eq, ← toList_unpackSevenBit, String.length_toList] at hchars hcount
  rw [SevenBit.groups_eq, SevenBit.length_digits] at hcount
  rw [SevenBit.groups_eq, SevenBit.take_digits hcount] at hchars
  rw [Build.packSevenBit, utf8_of_codes (fun _ => SevenBit.lt_of_mem_digits) hchars]
  exact SevenBit.isPrefix_pack_digits (by omega)

/-- Unpacking reads the whole groups of seven bits up to the first zero one, and no bit falls off
the accumulator. Unpacking what was packed gives the masked UTF-8 bytes up to the first zero, and
packing what was unpacked gives the bits that were read. -/
theorem sevenBit_codec (bytes : List UInt8) (text : String) :
    ((unpackSevenBit bytes).toList =
        ((SevenBit.groups bytes).takeWhile (· ≠ 0)).map Char.ofNat ∧
      Machine.unpackFrom 0 0 bytes = .ok (unpackSevenBit bytes).toList) ∧
    ((unpackSevenBit (Build.packSevenBit text)).toList =
        (((Build.utf8 text).map (· &&& 0x7F)).takeWhile (· ≠ 0)).map (Char.ofNat ·.toNat) ∧
      ((∀ c ∈ text.toList, c ≠ '\x00' ∧ c.toNat < 0x80) →
        unpackSevenBit (Build.packSevenBit text) = text)) ∧
    SevenBit.IsPrefix bytes (7 * (unpackSevenBit bytes).length)
      (Build.packSevenBit (unpackSevenBit bytes)) := by
  refine ⟨⟨?_, ?_⟩, ⟨toList_unpackSevenBit_pack text, unpackSevenBit_pack⟩,
    isPrefix_packSevenBit bytes⟩
  · rw [toList_unpackSevenBit, SevenBit.unpack_eq, SevenBit.charsOf]
  · rw [toList_unpackSevenBit]
    exact Machine.unpackFrom_eq bytes 0 (Nat.zero_le 6)

/-- Seven characters leave a spare group in their seven bytes, and a zero group ends a text though
another character comes behind it. -/
theorem sevenBit_codec_spare :
    (Build.packSevenBit "abcdefg").length = 7 ∧
    unpackSevenBit (Build.packSevenBit "abcdefg") = "abcdefg" ∧
    (unpackSevenBit [0x61, 0x31, 0x80, 0x0C]).toList = ['a', 'b'] ∧
    SevenBit.IsPrefix [0x61, 0x31, 0x80, 0x0C] 14
      (Build.packSevenBit (unpackSevenBit [0x61, 0x31, 0x80, 0x0C])) := by
  obtain ⟨⟨hchars, -⟩, ⟨-, hback⟩, hprefix⟩ := sevenBit_codec [0x61, 0x31, 0x80, 0x0C] "abcdefg"
  have hgroups : SevenBit.groups [0x61, 0x31, 0x80, 0x0C] = [0x61, 0x62, 0, 0x64] := by
    decide +kernel
  rw [hgroups] at hchars
  rw [← String.length_toList, hchars] at hprefix
  exact ⟨by decide +kernel, hback (by simp), hchars, hprefix⟩

end Ese.Text
