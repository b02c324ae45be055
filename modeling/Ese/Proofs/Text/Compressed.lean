import Mathlib
import Ese.Proofs.Text.SevenBit
import Ese.Proofs.Text.Utf16
import Ese.Text.Compressed
/-!
Compressed text round trips, and where it does not. Behind a marker that says nothing the reader
goes by the second byte of the text: it is zero in 16-bit text that starts with a unit below 256,
and in packed text it holds the upper bits of the second character and the lower two of the third.
-/

namespace Ese.Text.Compressed

/-- What is read behind a marker, and how it was taken. -/
def reading (bytes : List UInt8) : Option String × Encoding := (decode bytes, classify bytes)

def firstUnit? (text : String) : Option Nat := (text.toList.flatMap Utf16.units).head?

/-- Whether 16-bit text behind the marker is taken for what it is. -/
def ShowsWide (marker : UInt8) (text : String) : Prop :=
  marker ∈ [0x00, 0x01, 0x03, 0x08] ∨ marker ≠ 0x18 ∧ ∃ unit ∈ firstUnit? text, unit < 0x100

def Unmarked (marker : UInt8) : Prop := marker ∉ [0x00, 0x01, 0x03, 0x08, 0x18]

/-- What fits seven bits to a character, and does not end early. -/
def Packable (text : String) : Prop := ∀ c ∈ text.toList, c ≠ '\x00' ∧ c.toNat < 0x80

/-- Text that has a zero second byte when it is packed. -/
def LooksWide (text : String) : Prop :=
  text.toList[1]? = some '\x01' ∧ ∀ c ∈ text.toList[2]?, c.toNat % 4 = 0

/-- What a marker and a text come to, the text being written either way. -/
structure Codec (marker : UInt8) (text : String) : Prop where
  plain : Trims text.toList (decodeCodePage (Build.encodeUtf16 text) 1200).toList
  wide : ShowsWide marker text → reading (marker :: Build.encodeUtf16 text) =
    (some (decodeCodePage (Build.encodeUtf16 text) 1200), .utf16)
  /-- There are no other markers and texts of which that is so. -/
  wide_only : classify (marker :: Build.encodeUtf16 text) = .utf16 → ShowsWide marker text
  packed : Unmarked marker → Packable text → ¬ LooksWide text →
    reading (marker :: Build.packSevenBit text) = (some text, .sevenBit)
  mistaken : Unmarked marker → Packable text → LooksWide text →
    classify (marker :: Build.packSevenBit text) = .utf16
  lzxpress : ∀ bytes, decode (0x18 :: bytes) = none

section

variable {marker : UInt8} {text : String} {bytes : List UInt8}

/-! How text is taken -/

theorem classify_utf16_iff : classify (marker :: bytes) = .utf16 ↔
    marker ∈ [0x00, 0x01, 0x03, 0x08] ∨ marker ≠ 0x18 ∧ bytes[1]? = some 0 := by
  have hmarkers : marker ∈ utf16Markers ↔ marker ∈ [0x00, 0x01, 0x03, 0x08] := by
    simp [utf16Markers, or_comm]
  unfold classify
  by_cases hlzxpress : marker = 0x18
  · subst hlzxpress
    simp [lzxpressMarker]
  by_cases hwide : marker ∈ [0x00, 0x01, 0x03, 0x08]
  · simp [lzxpressMarker, hlzxpress, hmarkers, hwide]
  · simp [lzxpressMarker, hlzxpress, hmarkers, hwide, classifyUnmarked]

theorem classify_sevenBit (h : Unmarked marker) (hsecond : bytes[1]? ≠ some 0) :
    classify (marker :: bytes) = .sevenBit := by
  unfold Unmarked at h
  simp only [List.mem_cons, List.not_mem_nil, or_false, not_or] at h
  obtain ⟨h0, h1, h3, h8, h18⟩ := h
  simp [classify, lzxpressMarker, utf16Markers, classifyUnmarked, h0, h1, h3, h8, h18, hsecond]

theorem reading_utf16 (h : classify (marker :: bytes) = .utf16) :
    reading (marker :: bytes) = (some (decodeCodePage bytes 1200), .utf16) := by
  rw [reading, decode, h]
  rfl

/-! The second byte -/

theorem encode_second (text : List Char) :
    (Utf16.encode text)[1]? = ((text.flatMap Utf16.units).head?).map fun unit =>
      UInt8.ofNat (unit / 256) := by
  unfold Utf16.encode
  cases text.flatMap Utf16.units <;> rfl

theorem firstUnit?_lt {unit : Nat} (h : firstUnit? text = some unit) : unit < 0x10000 := by
  obtain ⟨c, -, hunit⟩ := List.mem_flatMap.mp (List.mem_of_mem_head? h)
  have hcases := Utf16.toNat_cases c
  unfold Utf16.units at hunit
  split at hunit
  · simp only [List.mem_singleton] at hunit
    omega
  · simp only [List.mem_cons, List.not_mem_nil, or_false] at hunit
    omega

theorem encodeUtf16_second_iff :
    (Build.encodeUtf16 text)[1]? = some 0 ↔ ∃ unit ∈ firstUnit? text, unit < 0x100 := by
  have hsecond : (Build.encodeUtf16 text)[1]? =
      (firstUnit? text).map fun unit => UInt8.ofNat (unit / 256) := encode_second text.toList
  rw [hsecond]
  cases hfirst : firstUnit? text with
  | none => simp
  | some unit =>
    have hlt := firstUnit?_lt hfirst
    have hzero : UInt8.ofNat (unit / 256) = 0 ↔ unit < 0x100 := by
      rw [← UInt8.toNat_inj, Field.toNat_ofNat8 (by omega), UInt8.toNat_zero]
      omega
    simpa using hzero

theorem showsWide_iff : ShowsWide marker text ↔
    classify (marker :: Build.encodeUtf16 text) = .utf16 := by
  rw [classify_utf16_iff, encodeUtf16_second_iff]
  rfl

/-- The packed bytes are one number, the first 14 bits of which are the first two characters. -/
theorem pack_second_iff (a b : UInt8) (rest : List UInt8) :
    (SevenBit.pack (a :: b :: rest))[1]? = some 0 ↔
      (b &&& 0x7F).toNat < 2 ∧ SevenBit.value rest % 4 = 0 := by
  have hlength := SevenBit.length_pack (a :: b :: rest)
  have hdecode := SevenBit.decode_pack (a :: b :: rest)
  have hfirst : (a &&& 0x7F).toNat < 128 := by rw [Field.low7]; omega
  have hsecond : (b &&& 0x7F).toNat < 128 := by rw [Field.low7]; omega
  rw [SevenBit.value_cons, SevenBit.value_cons] at hdecode
  rw [List.length_cons, List.length_cons] at hlength
  cases hpack : SevenBit.pack (a :: b :: rest) with
  | nil =>
    rw [hpack, List.length_nil] at hlength
    omega
  | cons x tail =>
    cases tail with
    | nil =>
      rw [hpack, List.length_singleton] at hlength
      omega
    | cons y bytes =>
      rw [hpack, LittleEndian.decode, LittleEndian.decode] at hdecode
      have hx := x.toNat_lt
      have hy := y.toNat_lt
      rw [List.getElem?_cons_succ, List.getElem?_cons_zero, Option.some.injEq, ← UInt8.toNat_inj,
        UInt8.toNat_zero]
      omega

theorem packSevenBit_second_iff (h : Packable text) :
    (Build.packSevenBit text)[1]? = some 0 ↔ LooksWide text := by
  unfold LooksWide
  rw [Build.packSevenBit, utf8_of_ascii fun c hc => (h c hc).2]
  have hcode : ∀ c ∈ text.toList, (UInt8.ofNat c.toNat &&& 0x7F).toNat = c.toNat := fun c hc => by
    have hc := (h c hc).2
    rw [Field.low7, Field.toNat_ofNat8 (by omega), Nat.mod_eq_of_lt hc]
  have hnul : ∀ c ∈ text.toList, c ≠ '\x00' := fun c hc => (h c hc).1
  generalize text.toList = chars at hcode hnul ⊢
  rcases chars with _ | ⟨a, _ | ⟨b, rest⟩⟩
  · simp [SevenBit.pack, SevenBit.packFrom]
  · simp [SevenBit.pack, SevenBit.packFrom]
  · have hb : b.toNat < 2 ↔ b = '\x01' := by
      have hnul : b.toNat ≠ 0 := fun hzero => hnul b (by simp) (Char.toNat_inj.mp hzero)
      rw [← Char.toNat_inj]
      change _ ↔ b.toNat = 1
      omega
    have hrest : SevenBit.value (rest.map fun c => UInt8.ofNat c.toNat) % 4 = 0 ↔
        ∀ c ∈ rest[0]?, c.toNat % 4 = 0 := by
      cases rest with
      | nil => simp [SevenBit.value]
      | cons c rest =>
        have hc := hcode c (by simp)
        rw [List.map_cons, SevenBit.value_cons, hc]
        simp only [List.getElem?_cons_zero, Option.mem_some_iff, forall_eq']
        omega
    rw [List.map_cons, List.map_cons, pack_second_iff, hcode b (by simp), hb, hrest]
    simp

end

/-- Text is read as it was written, whichever way that was, unless the second byte of it says
otherwise; and that happens exactly to the texts named. -/
theorem codec (marker : UInt8) (text : String) : Codec marker text := by
  refine ⟨?_, fun h => reading_utf16 (showsWide_iff.mp h), showsWide_iff.mpr, ?_, ?_, fun _ => rfl⟩
  · rw [show decodeCodePage (Build.encodeUtf16 text) 1200 = _ from decodeUtf16_encodeUtf16 text,
      String.toList_ofList]
    exact trims_dropTrailingNuls text.toList
  · intro hmarker hpackable hlooks
    have hclass := classify_sevenBit hmarker (mt (packSevenBit_second_iff hpackable).mp hlooks)
    rw [reading, decode, hclass]
    exact congrArg (fun t => (some t, Encoding.sevenBit)) (unpackSevenBit_pack hpackable)
  · intro hmarker hpackable hlooks
    refine classify_utf16_iff.mpr (.inr ⟨?_, (packSevenBit_second_iff hpackable).mpr hlooks⟩)
    rintro rfl
    exact hmarker (by simp)

/-- Two characters on three units, with a NUL behind them. -/
def wideText : String := String.ofList ['\u00e9', Char.ofNat 0x1F600, '\x00']

/-- The last two texts differ in the lowest bit of their third character. -/
theorem codec_behind_open_marker :
    reading (0x10 :: Build.encodeUtf16 wideText) =
        (some (String.ofList ['\u00e9', Char.ofNat 0x1F600]), .utf16) ∧
      classify (0x10 :: Build.packSevenBit "a\x01d") = .utf16 ∧
      reading (0x10 :: Build.packSevenBit "a\x01e") = (some "a\x01e", .sevenBit) := by
  have hopen : Unmarked 0x10 := by simp [Unmarked]
  refine ⟨?_, ?_, ?_⟩
  · rw [(codec 0x10 wideText).wide (.inr ⟨by decide, 0xE9, rfl, by decide⟩)]
    decide +kernel
  · apply (codec 0x10 "a\x01d").mistaken hopen
    · simp [Packable]
    · simp [LooksWide]
  · apply (codec 0x10 "a\x01e").packed hopen
    · simp [Packable]
    · simp [LooksWide]

end Ese.Text.Compressed
