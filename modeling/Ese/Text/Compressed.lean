import Ese.Text.CodePage
/-!
Compressed text. Its first byte is a marker, but the format has no clean rule for it: four markers
mean 16-bit text, one means LZXPRESS, and otherwise a zero third byte tells 16-bit text from
7-bit text.
-/

namespace Ese.Text.Compressed

inductive Encoding where
  | utf16
  | sevenBit
  /-- A compression that is recognised and left alone. -/
  | lzxpress
  deriving DecidableEq, Repr

def lzxpressMarker : UInt8 := 0x18

def utf16Markers : List UInt8 := [0x00, 0x01, 0x08, 0x03]

def classifyUnmarked (bytes : List UInt8) : Encoding :=
  if bytes[2]? = some 0 then .utf16 else .sevenBit

def classify (bytes : List UInt8) : Encoding :=
  match bytes with
  | [] => .sevenBit
  | marker :: _ =>
    if marker = lzxpressMarker then .lzxpress
    else if marker ∈ utf16Markers then .utf16
    else classifyUnmarked bytes

/-- The text behind the marker byte; none for LZXPRESS data, whose bytes the caller keeps. -/
def decode (bytes : List UInt8) : Option String :=
  match classify bytes with
  | .lzxpress => none
  | .utf16 => some (decodeUtf16 bytes.tail)
  | .sevenBit => some (unpackSevenBit bytes.tail)

end Ese.Text.Compressed
