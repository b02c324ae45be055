/-!
Hexadecimal text: bytes as pairs of lowercase digits, numbers with leading zeros to a width.
-/

namespace Ese.Text.Hex

def padLeft (width : Nat) (s : List Char) : List Char :=
  List.replicate (width - s.length) '0' ++ s

/-- The lowercase digits of a number, without leading zeros. -/
def ofNat (n : Nat) : List Char := Nat.toDigits 16 n

def padded (width n : Nat) : List Char := padLeft width (ofNat n)

def ofBytes (bytes : List UInt8) : String :=
  String.ofList (bytes.flatMap fun b => padded 2 b.toNat)

/-- A number behind `0x`, as short as it goes. -/
def literal (n : Nat) : String := "0x" ++ String.ofList (ofNat n)

/-- A 32-bit word behind `0x`, always eight digits. -/
def word (w : UInt32) : String := "0x" ++ String.ofList (padded 8 w.toNat)

end Ese.Text.Hex
