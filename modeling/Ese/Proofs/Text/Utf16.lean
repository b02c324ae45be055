import Mathlib
import Ese.Build.Sample
import Ese.Proofs.Bytes.Field
import Ese.Text.CodePage
/-!
UTF-16 text round trips. A character is written as itself or as two surrogates, and no character is
a surrogate; so the reader tells the two apart, and what it drops of a text are the NULs at its end.
-/

namespace Ese.Text

/-- The text up to the NULs at its end. -/
structure Trims (text trimmed : List Char) : Prop where
  padding : ∃ n, text = trimmed ++ List.replicate n '\x00'
  unpadded : trimmed.getLast? ≠ some '\x00'

theorem trims_dropTrailingNuls (text : List Char) : Trims text (dropTrailingNuls text) := by
  have hsplit := List.takeWhile_append_dropWhile (p := (· == '\x00')) (l := text.reverse)
  constructor
  · refine ⟨(text.reverse.takeWhile (· == '\x00')).length, ?_⟩
    have hnuls : text.reverse.takeWhile (· == '\x00') =
        List.replicate (text.reverse.takeWhile (· == '\x00')).length '\x00' := by
      refine List.eq_replicate_iff.mpr ⟨rfl, fun c hc => ?_⟩
      simpa using List.mem_takeWhile_imp hc
    apply List.reverse_injective
    rw [dropTrailingNuls, List.reverse_append, List.reverse_reverse, List.reverse_replicate,
      ← hnuls,
      hsplit]
  · rw [dropTrailingNuls, List.getLast?_reverse]
    intro hnul
    have hhead := List.head?_dropWhile_not (· == '\x00') text.reverse
    rw [hnul] at hhead
    simp at hhead

namespace Utf16

theorem toNat_cases (c : Char) :
    c.toNat < 0xD800 ∨ 0xE000 ≤ c.toNat ∧ c.toNat < 0x10000 ∨
      0x10000 ≤ c.toNat ∧ c.toNat < 0x110000 := by
  have hvalid : c.toNat < 0xD800 ∨ 0xDFFF < c.toNat ∧ c.toNat < 0x110000 := c.valid
  omega

theorem unitOf_bytes {unit : Nat} (h : unit < 0x10000) :
    unitOf (UInt8.ofNat unit) (UInt8.ofNat (unit / 256)) = unit := by
  simp only [unitOf, UInt8.toNat_ofNat']
  omega

theorem decode_plain {unit : Nat} (h : unit < 0x10000) (hplain : unit < 0xD800 ∨ 0xE000 ≤ unit)
    (rest : List UInt8) : decode (encodeUnit unit ++ rest) = Char.ofNat unit :: decode rest := by
  have hhigh : isHighSurrogate unit = false := by
    simp only [isHighSurrogate, Bool.and_eq_false_iff, decide_eq_false_iff_not]
    omega
  have hlow : isLowSurrogate unit = false := by
    simp only [isLowSurrogate, Bool.and_eq_false_iff, decide_eq_false_iff_not]
    omega
  rw [encodeUnit, List.cons_append, List.singleton_append, decode.eq_def]
  simp [unitOf_bytes h, hhigh, hlow]

theorem decode_pair {high low : Nat} (hhigh : 0xD800 ≤ high ∧ high < 0xDC00)
    (hlow : 0xDC00 ≤ low ∧ low < 0xE000) (rest : List UInt8) :
    decode (encodeUnit high ++ (encodeUnit low ++ rest)) = combine high low :: decode rest := by
  have hfirst : isHighSurrogate high = true := by simp [isHighSurrogate, hhigh]
  have hsecond : isLowSurrogate low = true := by simp [isLowSurrogate, hlow]
  simp [encodeUnit, decode, unitOf_bytes (show high < 0x10000 by omega),
    unitOf_bytes (show low < 0x10000 by omega), hfirst, hsecond]

theorem decode_units (c : Char) (rest : List UInt8) :
    decode ((units c).flatMap encodeUnit ++ rest) = c :: decode rest := by
  have hcases := toNat_cases c
  unfold units
  split
  · have hplain : c.toNat < 0xD800 ∨ 0xE000 ≤ c.toNat := by omega
    rw [List.flatMap_singleton, decode_plain ‹_› hplain, Char.ofNat_toNat]
  · -- what is left above the first 65536 has 20 bits, ten for each surrogate
    have hchar : combine (0xD800 + (c.toNat - 0x10000) / 0x400)
        (0xDC00 + (c.toNat - 0x10000) % 0x400) = c := by
      refine Eq.trans (congrArg Char.ofNat ?_) (Char.ofNat_toNat c)
      omega
    dsimp only
    rw [List.flatMap_cons, List.flatMap_singleton, List.append_assoc,
      decode_pair (by omega) (by omega), hchar]

theorem decode_encode_chars (text : List Char) : decode (encode text) = text := by
  induction text with
  | nil => rfl
  | cons c text ih =>
    have hencode : encode (c :: text) = (units c).flatMap encodeUnit ++ encode text := by
      simp [encode]
    rw [hencode, decode_units, ih]

end Utf16

theorem decodeUtf16_encodeUtf16 (text : String) :
    decodeUtf16 (Build.encodeUtf16 text) = String.ofList (dropTrailingNuls text.toList) := by
  rw [decodeUtf16, Build.encodeUtf16, Utf16.decode_encode_chars]

end Ese.Text
