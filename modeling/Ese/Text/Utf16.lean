/-!
Text as little-endian 16-bit units. Decoding never fails: each unpaired surrogate becomes one
replacement character, and so does an odd last byte, together with a surrogate still waiting for
its partner.
-/

namespace Ese.Text.Utf16

def replacement : Char := '\uFFFD'

def isHighSurrogate (unit : Nat) : Bool := 0xD800 ≤ unit && unit < 0xDC00

def isLowSurrogate (unit : Nat) : Bool := 0xDC00 ≤ unit && unit < 0xE000

def combine (high low : Nat) : Char :=
  Char.ofNat (0x10000 + (high - 0xD800) * 0x400 + (low - 0xDC00))

def unitOf (low high : UInt8) : Nat := low.toNat + 256 * high.toNat

def decode : List UInt8 → List Char
  | [] => []
  | [_] => [replacement]
  | a :: b :: rest =>
    let unit := unitOf a b
    if isHighSurrogate unit then
      match rest with
      | c :: d :: rest' =>
        if isLowSurrogate (unitOf c d) then combine unit (unitOf c d) :: decode rest'
        else replacement :: decode (c :: d :: rest')
      | _ => [replacement]
    else if isLowSurrogate unit then replacement :: decode rest
    else Char.ofNat unit :: decode rest

/-- The units of one character: itself, or two surrogates above the first 65536. -/
def units (c : Char) : List Nat :=
  if c.toNat < 0x10000 then [c.toNat]
  else
    let offset := c.toNat - 0x10000
    [0xD800 + offset / 0x400, 0xDC00 + offset % 0x400]

def encodeUnit (unit : Nat) : List UInt8 := [UInt8.ofNat unit, UInt8.ofNat (unit / 256)]

def encode (text : List Char) : List UInt8 := (text.flatMap units).flatMap encodeUnit

end Ese.Text.Utf16
