import Mathlib
import Ese.Proofs.Bytes.Field
import Ese.Proofs.Machine.Operations
import Ese.Text.Compressed
/-!
Compressed text, decoded with checked operations. At most six bits wait in the accumulator when a
byte comes, so its eight bits and these fit, and they give one or two characters.
-/

namespace Ese.Machine

/-- More bytes than any buffer has; up to here their bits can be counted in a word. -/
def bufferLimit : Nat := 0x2000000000000000

/-- Takes characters out of the accumulator while it has seven bits. It is gone when the zero
character was met. -/
def drain (acc bits : Nat) : Except DecodeError (List Char × Option (Nat × Nat)) :=
  if 7 ≤ bits then do
    let group ← fit 8 (acc &&& 0x7F)
    if group = 0 then return ([], none)
    else do
      let acc ← shiftRight 16 acc 7
      let _ ← sub bits 7
      let (chars, rest) ← drain acc (bits - 7)
      return (Char.ofNat group :: chars, rest)
  else return ([], some (acc, bits))
  termination_by bits

def unpackFrom (acc bits : Nat) : Bytes → Except DecodeError (List Char)
  | [] => return []
  | byte :: bytes => do
    let high ← shiftLeft 16 byte.toNat bits
    let bits ← add 32 bits 8
    let (chars, rest) ← drain (acc ||| high) bits
    match rest with
    | none => return chars
    | some (acc, bits) => do
      let more ← unpackFrom acc bits bytes
      return chars ++ more

def unpack (bytes : Bytes) : Except DecodeError String := do
  let bits ← mul 64 bytes.length 8
  let _ ← div bits 7
  let chars ← unpackFrom 0 0 bytes
  return String.ofList chars

def classify (bytes : Bytes) : Except DecodeError Text.Compressed.Encoding :=
  if bytes.head? = some Text.Compressed.lzxpressMarker then return .lzxpress
  else if bytes.head?.any (· ∈ Text.Compressed.utf16Markers) then return .utf16
  else if 2 < bytes.length then do
    let third ← item bytes 2
    return if third = 0 then .utf16 else .sevenBit
  else return .sevenBit

def decodeCompressed (bytes : Bytes) : Except DecodeError (Option String) := do
  match ← classify bytes with
  | .lzxpress => return none
  | .utf16 => return some (Text.decodeUtf16 bytes.tail)
  | .sevenBit => do
    let text ← unpack bytes.tail
    return some text

theorem drain_few {acc bits : Nat} (h : bits < 7) :
    drain acc bits = .ok ([], some (acc, bits)) := by
  rw [drain, if_neg (by omega)]
  rfl

theorem drain_character {acc : UInt16} {bits : Nat} (h : 7 ≤ bits) :
    drain acc.toNat bits =
      if Text.SevenBit.lowSeven acc = 0 then .ok ([], none)
      else (drain (acc >>> 7).toNat (bits - 7)).map fun r =>
        (Text.SevenBit.charOf (Text.SevenBit.lowSeven acc) :: r.1, r.2) := by
  have hgroup : acc.toNat &&& 0x7F = (Text.SevenBit.lowSeven acc).toNat :=
    (UInt16.toNat_and acc 0x7F).symm
  have hsmall : (Text.SevenBit.lowSeven acc).toNat < 2 ^ 8 := by
    rw [← hgroup]
    exact lt_of_le_of_lt Nat.and_le_right (by decide)
  have hzero : (Text.SevenBit.lowSeven acc).toNat = 0 ↔ Text.SevenBit.lowSeven acc = 0 := by
    rw [← UInt16.toNat_inj]
    rfl
  have hrest : acc.toNat / 2 ^ 7 = (acc >>> 7).toNat := by
    rw [UInt16.toNat_shiftRight, Nat.shiftRight_eq_div_pow]
    rfl
  rw [drain, if_pos h, hgroup, fit_eq hsmall, ok_bind, map_eq_bind]
  simp only [hzero]
  split
  · rfl
  · rw [shiftRight_eq (by decide), ok_bind, hrest, sub_eq h, ok_bind]
    rfl

theorem shifted_lt (byte : UInt8) {pending : Nat} (h : pending ≤ 6) :
    byte.toNat * 2 ^ pending < 2 ^ 14 := calc
  _ ≤ 255 * 2 ^ 6 := Nat.mul_le_mul (Nat.le_of_lt_succ byte.toNat_lt)
    (Nat.pow_le_pow_right (by decide) h)
  _ < 2 ^ 14 := by decide

theorem or_shifted (acc : UInt16) (byte : UInt8) {pending : Nat} (h : pending ≤ 6) :
    acc.toNat ||| byte.toNat * 2 ^ pending =
      (acc ||| (byte.toUInt16 <<< UInt16.ofNat pending)).toNat := by
  have hshift : (UInt16.ofNat pending).toNat % 16 = pending := by
    rw [Field.toNat_ofNat (by omega)]
    omega
  rw [UInt16.toNat_or, UInt16.toNat_shiftLeft, hshift, Nat.shiftLeft_eq, UInt8.toNat_toUInt16,
    Nat.mod_eq_of_lt ((shifted_lt byte h).trans (by decide))]

theorem unpackFrom_eq (bytes : Bytes) (acc : UInt16) {pending : Nat} (h : pending ≤ 6) :
    unpackFrom acc.toNat pending bytes = .ok (Text.SevenBit.unpackFrom acc pending bytes) := by
  induction bytes generalizing acc pending with
  | nil => rfl
  | cons byte bytes ih =>
    have hroom := shifted_lt byte h
    rw [unpackFrom, shiftLeft_eq (by omega) (hroom.trans (by decide)), ok_bind,
      or_shifted acc byte h, add_eq (by omega), ok_bind, drain_character (by omega),
      Text.SevenBit.unpackFrom]
    dsimp only
    generalize acc ||| (byte.toUInt16 <<< UInt16.ofNat pending) = acc
    by_cases hfirst : Text.SevenBit.lowSeven acc = 0
    · rw [if_pos hfirst, if_pos hfirst]
      rfl
    rw [if_neg hfirst, if_neg hfirst]
    by_cases hfew : pending < 6
    · rw [if_pos hfew, drain_few (by omega)]
      change (unpackFrom _ (pending + 8 - 7) bytes >>= _) = _
      rw [show pending + 8 - 7 = pending + 1 by omega, ih _ (by omega)]
      rfl
    -- after six bits the byte completes a second character
    rw [if_neg hfew, drain_character (by omega)]
    by_cases hsecond : Text.SevenBit.lowSeven (acc >>> 7) = 0
    · rw [if_pos hsecond, if_pos hsecond]
      rfl
    · have htwice : acc >>> 7 >>> 7 = acc >>> 14 := by
        rw [← UInt16.toNat_inj, UInt16.toNat_shiftRight, UInt16.toNat_shiftRight,
          UInt16.toNat_shiftRight, ← Nat.shiftRight_add]
        rfl
      rw [if_neg hsecond, if_neg hsecond, drain_few (by omega), htwice]
      change (unpackFrom _ (pending + 8 - 7 - 7) bytes >>= _) = _
      rw [show pending + 8 - 7 - 7 = 0 by omega, ih _ (by omega)]
      rfl

theorem unpack_eq {bytes : Bytes} (h : bytes.length < bufferLimit) :
    unpack bytes = .ok (Text.unpackSevenBit bytes) := by
  have hlimit : bufferLimit * 8 = 2 ^ 64 := rfl
  rw [unpack, mul_eq (by omega), ok_bind, div_eq (by decide), ok_bind]
  exact congrArg (· >>= fun chars => Except.ok (String.ofList chars))
    (unpackFrom_eq bytes 0 (Nat.zero_le 6))

theorem classify_eq (bytes : Bytes) : classify bytes = .ok (Text.Compressed.classify bytes) := by
  rcases bytes with _ | ⟨marker, rest⟩
  · rfl
  · unfold classify Text.Compressed.classify
    simp only [List.head?_cons, Option.some.injEq, Option.any_some, decide_eq_true_eq]
    split
    · rfl
    split
    · rfl
    unfold Text.Compressed.classifyUnmarked
    split
    · rename_i hlong
      rw [item_eq (List.getElem?_eq_getElem hlong), ok_bind, List.getElem?_eq_getElem hlong]
      simp only [Option.some.injEq]
      rfl
    · rename_i hshort
      rw [List.getElem?_eq_none (by omega), if_neg nofun]
      rfl

theorem decodeCompressed_eq {bytes : Bytes} (h : bytes.length < bufferLimit) :
    decodeCompressed bytes = .ok (Text.Compressed.decode bytes) := by
  rw [decodeCompressed, classify_eq, ok_bind, Text.Compressed.decode]
  cases Text.Compressed.classify bytes with
  | lzxpress => rfl
  | utf16 => rfl
  | sevenBit =>
    rw [unpack_eq (lt_of_le_of_lt (by simp) h)]
    rfl

end Ese.Machine
