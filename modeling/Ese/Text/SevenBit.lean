/-!
Text packed seven bits to a character, low bits first. Unpacking keeps the bits not yet used in a
16-bit accumulator and stops at the first zero character.
-/

namespace Ese.Text.SevenBit

def lowSeven (acc : UInt16) : UInt16 := acc &&& 0x7F

def charOf (group : UInt16) : Char := Char.ofNat group.toNat

/-- Unpacks with `pending` bits (at most six) waiting in `acc`. A byte completes one character, and
after six pending bits a second one. -/
def unpackFrom (acc : UInt16) (pending : Nat) : List UInt8 → List Char
  | [] => []
  | byte :: rest =>
    let acc := acc ||| (byte.toUInt16 <<< UInt16.ofNat pending)
    let first := lowSeven acc
    if first = 0 then []
    else if pending < 6 then
      charOf first :: unpackFrom (acc >>> 7) (pending + 1) rest
    else
      let second := lowSeven (acc >>> 7)
      if second = 0 then [charOf first]
      else charOf first :: charOf second :: unpackFrom (acc >>> 14) 0 rest

def unpack (bytes : List UInt8) : List Char := unpackFrom 0 0 bytes

/-- Packs with `pending` bits (at most seven) waiting in `acc`; what is left at the end fills one
more byte. -/
def packFrom (acc : UInt32) (pending : Nat) : List UInt8 → List UInt8
  | [] => if pending = 0 then [] else [acc.toUInt8]
  | byte :: rest =>
    let acc := acc ||| ((byte &&& 0x7F).toUInt32 <<< UInt32.ofNat pending)
    if pending + 7 < 8 then packFrom acc (pending + 7) rest
    else acc.toUInt8 :: packFrom (acc >>> 8) (pending - 1) rest

def pack (bytes : List UInt8) : List UInt8 := packFrom 0 0 bytes

end Ese.Text.SevenBit
