import Mathlib
import Ese.Bytes.Source
import Ese.Proofs.LittleEndian
import Ese.Proofs.Outcome
/-!
What a bounded read says about its source: the bytes are there, they are those of the number that
was read, and no byte behind them makes a difference.
-/

namespace Ese

theorem LittleEndian.toNat_decode {bytes : Bytes} (h : bytes.length = 4) :
    (UInt32.ofNat (decode bytes)).toNat = decode bytes := by
  have hlt := decode_lt bytes
  rw [h] at hlt
  exact UInt32.toNat_ofNat_of_lt' hlt

variable {b b' : Bytes} {n offset : Nat} {part : Part}

theorem slice_of_take {count : Nat} {bytes : Bytes} (hsame : b'.take n = b.take n)
    (hinside : offset + count ≤ n) (h : slice b offset count part = .ok bytes) :
    slice b' offset count part = .ok bytes := by
  obtain ⟨hlen, rfl⟩ := slice_eq_ok_iff.mp h
  have hcut (a : Bytes) : (a.drop offset).take count = ((a.take n).drop offset).take count := by
    rw [List.drop_take, List.take_take, Nat.min_eq_left (by omega)]
  have hlength := congrArg List.length hsame
  rw [List.length_take, List.length_take] at hlength
  exact slice_eq_ok_iff.mpr ⟨by omega, by rw [hcut b, hcut b', hsame]⟩

theorem end_le_of_readU16 {x : UInt16} (h : readU16 b offset part = .ok x) :
    offset + 2 ≤ b.length := by
  obtain ⟨_, hnat, -⟩ := Outcome.of_map_ok h
  obtain ⟨_, hslice, -⟩ := Outcome.of_map_ok hnat
  exact (slice_eq_ok_iff.mp hslice).1

theorem readU16_of_take {x : UInt16} (hsame : b'.take n = b.take n) (hinside : offset + 2 ≤ n)
    (h : readU16 b offset part = .ok x) : readU16 b' offset part = .ok x := by
  obtain ⟨number, hnat, rfl⟩ := Outcome.of_map_ok h
  obtain ⟨bytes, hslice, rfl⟩ := Outcome.of_map_ok hnat
  rw [readU16, readNat, slice_of_take hsame hinside hslice]
  rfl

theorem encode_of_readU32 {x : UInt32} (h : readU32 b offset part = .ok x) :
    LittleEndian.encode 4 x.toNat <+: b.drop offset := by
  obtain ⟨number, hnat, rfl⟩ := Outcome.of_map_ok h
  obtain ⟨bytes, hslice, rfl⟩ := Outcome.of_map_ok hnat
  obtain ⟨hinside, rfl⟩ := slice_eq_ok_iff.mp hslice
  have hlength : ((b.drop offset).take 4).length = 4 := by
    rw [List.length_take, List.length_drop]
    omega
  have hbytes := LittleEndian.encode_decode ((b.drop offset).take 4)
  rw [hlength] at hbytes
  rw [LittleEndian.toNat_decode hlength, hbytes]
  exact List.take_prefix 4 (b.drop offset)

/-! Reads from the front -/

/-- The read takes so many bytes from the front and nothing behind them. It fails only where they
are not there. -/
structure TakesFront {α : Type} (part : Part) (width : Nat) (read : Bytes → Except DecodeError α) :
    Prop where
  whole : ∀ bytes, width ≤ bytes.length → ∃ a, read bytes = .ok a
  short : ∀ bytes, bytes.length < width →
    read bytes = .error (.truncated part 0 width bytes.length)
  front : ∀ a b, a.take width = b.take width → read a = read b

namespace TakesFront

variable {α β : Type} {width : Nat}

theorem ofSlice (width : Nat) : TakesFront part width fun bytes => slice bytes 0 width part := by
  have hwhole (bytes : Bytes) (h : width ≤ bytes.length) :
      slice bytes 0 width part = .ok (bytes.take width) :=
    slice_eq_ok_iff.mpr ⟨by omega, rfl⟩
  refine ⟨fun bytes h => ⟨_, hwhole bytes h⟩, fun bytes h => ?_, fun a b hsame => ?_⟩
  · have hshort : ¬ 0 + width ≤ bytes.length := by omega
    exact (if_neg hshort).trans (if_pos (by decide))
  · have hlength := congrArg List.length hsame
    rw [List.length_take, List.length_take] at hlength
    by_cases ha : width ≤ a.length
    · rw [hwhole a ha, hwhole b (by omega), hsame]
    · -- both are short, and all of them is in front
      rw [List.take_of_length_le (by omega), List.take_of_length_le (by omega)] at hsame
      rw [hsame]

theorem map {read : Bytes → Except DecodeError α} (h : TakesFront part width read) (f : α → β) :
    TakesFront part width fun bytes => (read bytes).map f := by
  refine ⟨fun bytes hlength => ?_, fun bytes hlength => ?_, fun a b hsame => ?_⟩
  · obtain ⟨a, ha⟩ := h.whole bytes hlength
    exact ⟨f a, by rw [ha]; rfl⟩
  · rw [h.short bytes hlength]
    rfl
  · rw [h.front a b hsame]

theorem ofReadNat (width : Nat) (f : Nat → α) :
    TakesFront part width fun bytes => (readNat bytes width 0 part).map f :=
  ((ofSlice width).map _).map f

theorem error_iff {read : Bytes → Except DecodeError α} (h : TakesFront part width read)
    {bytes : Bytes} {e : DecodeError} :
    read bytes = .error e ↔ bytes.length < width ∧ e = .truncated part 0 width bytes.length := by
  rcases Nat.lt_or_ge bytes.length width with hlt | hge
  · rw [h.short bytes hlt, Except.error.injEq]
    exact ⟨fun he => ⟨hlt, he.symm⟩, fun he => he.2.symm⟩
  · obtain ⟨a, ha⟩ := h.whole bytes hge
    rw [ha]
    exact ⟨nofun, fun he => absurd he.1 (by omega)⟩

end TakesFront

end Ese
