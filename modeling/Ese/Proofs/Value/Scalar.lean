import Mathlib
import Ese.Proofs.Bytes.Segment
import Ese.Proofs.Decimal.Widening
import Ese.Proofs.Record.Types
/-!
Plain values and the widths of their types. A type with a stored size takes that many bytes from the
front, and the others take any bytes. The range of an integer type has as many numbers as its bytes
can tell apart, so each of them comes back from its two's complement.
-/

namespace Ese

namespace Column

/-- The column leaves its width to its type, or it has room for a value of the type. -/
def HasRoom (c : Column) : Prop :=
  c.width = 0 ∨ ∀ size, c.type.fixedSize = some size → size ≤ c.width.toNat

theorem HasRoom.size_le {c : Column} {n size : Nat} (h : c.HasRoom) (hn : c.fixedWidth = some n)
    (hsize : c.type.fixedSize = some size) : size ≤ n := by
  unfold fixedWidth at hn
  split at hn
  · exact Nat.le_of_eq (Option.some.inj (hsize.symm.trans hn))
  · rename_i hdeclared
    exact Option.some.inj hn ▸ h.resolve_left hdeclared size hsize

end Column

namespace Value

variable {c : Column} {width : Nat} {bytes : Bytes} {least greatest : Int}

/-- The reader of a type takes as many bytes as the table of sizes says. -/
theorem takesFront_decode (h : c.type.fixedSize = some width) :
    TakesFront .columnValue width (decode c) := by
  obtain ⟨_, _, type, _, _, _⟩ := c
  cases type with
  | nil | binary | text | longBinary | longText | slv | other => cases h
  | guid =>
    cases h
    exact (TakesFront.ofSlice 16).map _
  | bit | unsignedByte =>
    cases h
    exact (TakesFront.ofReadNat 1 _).map _
  | short | unsignedShort =>
    cases h
    exact (TakesFront.ofReadNat 2 _).map _
  | long | unsignedLong | ieeeSingle =>
    cases h
    exact (TakesFront.ofReadNat 4 _).map _
  | currency | ieeeDouble | dateTime | longLong =>
    cases h
    exact (TakesFront.ofReadNat 8 _).map _

theorem exists_decode_of_unsized (h : c.type.fixedSize = none) (bytes : Bytes) :
    ∃ v, decode c bytes = .ok v := by
  obtain ⟨_, _, type, _, _, _⟩ := c
  cases type with
  | nil | binary | text | longBinary | longText | slv | other => exact ⟨_, rfl⟩
  | bit | unsignedByte | short | unsignedShort | long | unsignedLong | ieeeSingle | currency
  | ieeeDouble | dateTime | longLong | guid => cases h

theorem decode_eq_error_iff {e : DecodeError} : decode c bytes = .error e ↔
    ∃ width, c.type.fixedSize = some width ∧ bytes.length < width ∧
      e = .truncated .columnValue 0 width bytes.length := by
  cases hsize : c.type.fixedSize with
  | none =>
    obtain ⟨v, hv⟩ := exists_decode_of_unsized hsize bytes
    simp [hv]
  | some width => simp [(takesFront_decode hsize).error_iff]

/-- A fixed column with room for its type has a value wherever a record has its bytes. -/
theorem exists_decode_of_hasRoom {n : Nat} (h : c.HasRoom) (hn : c.fixedWidth = some n)
    (hlength : bytes.length = n) : ∃ v, decode c bytes = .ok v := by
  cases hdecode : decode c bytes with
  | ok v => exact ⟨v, rfl⟩
  | error e =>
    obtain ⟨size, hsize, hshort, -⟩ := decode_eq_error_iff.mp hdecode
    have hle := h.size_le hn hsize
    omega

end Value

/-! Numbers of a word -/

theorem bmod_modEq (v : Int) (bits : Nat) : v.bmod (2 ^ bits) ≡ v [ZMOD 2 ^ bits] := by
  exact_mod_cast Int.bmod_emod (x := v) (m := 2 ^ bits)

/-- A word that is read as signed has the number that was put into it, but for a multiple of what
it can hold. -/
theorem toInt_signed_modEq (bits m : Nat) : (BitVec.ofNat bits m).toInt ≡ m [ZMOD 2 ^ bits] := by
  rw [BitVec.toInt_ofNat']
  exact bmod_modEq m bits

theorem toInt_unsigned_modEq (bits : Nat) {wide : Nat} (h : bits ≤ wide) (m : Nat) :
    ((BitVec.ofNat bits m).setWidth wide).toInt ≡ m [ZMOD 2 ^ bits] := by
  have hdvd : (2 ^ bits : Int) ∣ 2 ^ wide := pow_dvd_pow 2 h
  rw [BitVec.toInt_setWidth, BitVec.toNat_ofNat]
  refine ((bmod_modEq _ wide).of_dvd hdvd).trans ?_
  push_cast
  exact Int.mod_modEq m _

namespace ColumnType

/-- The range of an integer type has as many numbers as its bytes can tell apart. -/
theorem fixedSize_of_range? {type : ColumnType} {least greatest : Int}
    (h : type.range? = some (least, greatest)) :
    ∃ width, type.fixedSize = some width ∧ greatest + 1 = least + 256 ^ width := by
  cases type with
  | nil | bit | ieeeSingle | ieeeDouble | binary | text | longBinary | longText | slv | guid
  | other => cases h
  | unsignedByte | short | unsignedShort | long | unsignedLong | longLong | currency | dateTime =>
    cases h
    exact ⟨_, rfl, by norm_num⟩

end ColumnType

namespace Value

variable {c : Column} {width : Nat} {bytes : Bytes} {least greatest : Int}

/-- An integer column reads one number of its width and keeps it, but for a multiple of what the
width can hold. -/
theorem decode_eq_number (hrange : c.type.range? = some (least, greatest))
    (hsize : c.type.fixedSize = some width) :
    ∃ f : Nat → Int64, (∀ m, (f m).toInt ≡ m [ZMOD 256 ^ width]) ∧
      ∀ bytes, decode c bytes = (readNat bytes width 0 .columnValue).map fun m => .int (f m) := by
  obtain ⟨_, _, type, _, _, _⟩ := c
  cases type with
  | nil | bit | ieeeSingle | ieeeDouble | binary | text | longBinary | longText | slv | guid
  | other => cases hrange
  | unsignedByte =>
    cases hsize
    exact ⟨fun m => (UInt8.ofNat m).toUInt64.toInt64, toInt_unsigned_modEq 8 (by decide),
      fun bytes => Outcome.map_map _ _ _⟩
  | unsignedShort =>
    cases hsize
    exact ⟨fun m => (UInt16.ofNat m).toUInt64.toInt64, toInt_unsigned_modEq 16 (by decide),
      fun bytes => Outcome.map_map _ _ _⟩
  | unsignedLong =>
    cases hsize
    exact ⟨fun m => (UInt32.ofNat m).toUInt64.toInt64, toInt_unsigned_modEq 32 (by decide),
      fun bytes => Outcome.map_map _ _ _⟩
  | short =>
    cases hsize
    refine ⟨fun m => (UInt16.ofNat m).toInt16.toInt64, fun m => ?_,
      fun bytes => Outcome.map_map _ _ _⟩
    rw [Int16.toInt_toInt64]
    exact toInt_signed_modEq 16 m
  | long =>
    cases hsize
    refine ⟨fun m => (UInt32.ofNat m).toInt32.toInt64, fun m => ?_,
      fun bytes => Outcome.map_map _ _ _⟩
    rw [Int32.toInt_toInt64]
    exact toInt_signed_modEq 32 m
  | longLong | currency | dateTime =>
    cases hsize
    exact ⟨fun m => (UInt64.ofNat m).toInt64, toInt_signed_modEq 64,
      fun bytes => Outcome.map_map _ _ _⟩

theorem eq_of_modEq {a b n : Int} (h : a ≡ b [ZMOD n]) (hn : greatest + 1 = least + n)
    (ha : least ≤ a ∧ a ≤ greatest) (hb : least ≤ b ∧ b ≤ greatest) : a = b := by
  have hclose : |b - a| < n := abs_lt.mpr ⟨by omega, by omega⟩
  have hzero := Int.eq_zero_of_abs_lt_dvd h.dvd hclose
  omega

theorem Suits.range {type : ColumnType} {i : Int64} (h : Suits type (.int i)) :
    ∃ least greatest, type.range? = some (least, greatest) ∧
      least ≤ i.toInt ∧ i.toInt ≤ greatest := by
  cases h with
  | number hrange hleast hgreatest => exact ⟨_, _, hrange, hleast, hgreatest⟩

/-- Each number of the range comes back from its two's complement. -/
theorem decode_encodeInt (hrange : c.type.range? = some (least, greatest))
    (hsize : c.type.fixedSize = some width) {v : Int} (hv : least ≤ v ∧ v ≤ greatest)
    (rest : Bytes) :
    ∃ i : Int64, i.toInt = v ∧
      decode c (LittleEndian.encodeInt width v ++ rest) = .ok (.int i) := by
  obtain ⟨f, hf, hdecode⟩ := decode_eq_number hrange hsize
  obtain ⟨size, hsize', hcount⟩ := ColumnType.fixedSize_of_range? hrange
  obtain rfl : width = size := Option.some.inj (hsize.symm.trans hsize')
  have hslice := (Segment.whole (LittleEndian.encodeInt width v ++ rest)).left.slice_eq
    .columnValue (LittleEndian.length_encodeInt width v).symm
  have hi : decode c (LittleEndian.encodeInt width v ++ rest) =
      .ok (.int (f (LittleEndian.decode (LittleEndian.encodeInt width v)))) := by
    rw [hdecode, readNat, hslice]
    rfl
  refine ⟨_, ?_, hi⟩
  -- what was read is in the range too, and the range has one number for each remainder
  obtain ⟨least', greatest', hrange', hin⟩ := (suits_decode hi).range
  obtain ⟨rfl, rfl⟩ := Prod.mk.inj (Option.some.inj (hrange.symm.trans hrange'))
  exact eq_of_modEq ((hf _).trans (LittleEndian.decode_encodeInt_modEq width v)) hcount hin hv

/-- Bytes are read as the number whose two's complement they start with. -/
theorem encodeInt_of_decode (hrange : c.type.range? = some (least, greatest))
    (hsize : c.type.fixedSize = some width) {i : Int64} (h : decode c bytes = .ok (.int i)) :
    LittleEndian.encodeInt width i.toInt <+: bytes := by
  obtain ⟨f, hf, hdecode⟩ := decode_eq_number hrange hsize
  rw [hdecode] at h
  obtain ⟨m, hread, hm⟩ := Outcome.of_map_ok h
  obtain rfl := Value.int.inj hm
  obtain ⟨raw, hslice, rfl⟩ := Outcome.of_map_ok hread
  obtain ⟨hinside, rfl⟩ := slice_eq_ok_iff.mp hslice
  rw [List.drop_zero, LittleEndian.encodeInt_of_modEq (List.length_take_of_le (by omega)) (hf _)]
  exact List.take_prefix width bytes

theorem decode_bit (h : c.type = .bit) (byte : UInt8) (rest : Bytes) :
    decode c (byte :: rest) = .ok (.bool (byte != 0)) := by
  have hread := (Segment.whole (byte :: rest)).head.readU8_eq .columnValue
  unfold decode
  rw [h]
  dsimp only
  rw [hread]
  rfl

/-- A column of single-precision numbers has them as they are stored, in double precision. -/
theorem decode_single (h : c.type = .ieeeSingle) {v : Value} (hdecode : decode c bytes = .ok v) :
    ∃ single double, readU32 bytes 0 .columnValue = .ok single ∧ v = .float double ∧
      Decimal.isNegative double = (single >>> 31 != 0) ∧
      (Decimal.magnitude double).Same (Decimal.singleMagnitude single) := by
  unfold decode at hdecode
  rw [h] at hdecode
  obtain ⟨single, hread, rfl⟩ := Outcome.of_map_ok hdecode
  obtain ⟨hsign, hsame, -⟩ := Decimal.widen_exact single
  exact ⟨single, _, hread, rfl, hsign, hsame⟩

/-- The type of a column says how many bytes a value takes, and what is made of them. -/
structure Measured (c : Column) : Prop where
  error_iff : ∀ bytes e, decode c bytes = .error e ↔
    ∃ width, c.type.fixedSize = some width ∧ bytes.length < width ∧
      e = .truncated .columnValue 0 width bytes.length
  /-- Nothing behind the bytes of the value makes a difference. -/
  front : ∀ width, c.type.fixedSize = some width →
    ∀ a b : Bytes, a.take width = b.take width → decode c a = decode c b
  number : ∀ least greatest, c.type.range? = some (least, greatest) →
    ∃ width, c.type.fixedSize = some width ∧ ∀ v, least ≤ v → v ≤ greatest → ∀ rest,
      ∃ i : Int64, i.toInt = v ∧ decode c (LittleEndian.encodeInt width v ++ rest) = .ok (.int i)
  number_only : ∀ bytes i, decode c bytes = .ok (.int i) → ∃ least greatest width,
    c.type.range? = some (least, greatest) ∧ least ≤ i.toInt ∧ i.toInt ≤ greatest ∧
      c.type.fixedSize = some width ∧ LittleEndian.encodeInt width i.toInt <+: bytes
  bit : c.type = .bit → ∀ byte rest, ∃ b, decode c (byte :: rest) = .ok (.bool b) ∧
    (b = true ↔ byte ≠ 0)
  fixed : ∀ n, c.fixedWidth = some n → c.HasRoom →
    ∀ bytes : Bytes, bytes.length = n → ∃ v, decode c bytes = .ok v

/-- Of every type, and for bytes of any length, the size and the reader agree. -/
theorem measured_decode (c : Column) : Measured c := by
  refine ⟨fun _ _ => decode_eq_error_iff, fun width hsize => (takesFront_decode hsize).front,
    fun least greatest hrange => ?_, fun bytes i h => ?_, fun hbit byte rest => ?_,
    fun n hn hroom bytes hlength => exists_decode_of_hasRoom hroom hn hlength⟩
  · obtain ⟨width, hsize, -⟩ := ColumnType.fixedSize_of_range? hrange
    exact ⟨width, hsize, fun v hleast hgreatest =>
      decode_encodeInt hrange hsize ⟨hleast, hgreatest⟩⟩
  · obtain ⟨least, greatest, hrange, hleast, hgreatest⟩ := (suits_decode h).range
    obtain ⟨width, hsize, -⟩ := ColumnType.fixedSize_of_range? hrange
    exact ⟨least, greatest, width, hrange, hleast, hgreatest, hsize,
      encodeInt_of_decode hrange hsize h⟩
  · exact ⟨_, decode_bit hbit byte rest, bne_iff_ne⟩

/-- The third byte is not part of the value, and the sign is that of the second. -/
example : decode ⟨1, "Offset", .short, 2, 0, 0⟩ (LittleEndian.encodeInt 2 (-2) ++ [7]) =
    .ok (.int (-2)) := by
  decide +kernel

end Value

end Ese
