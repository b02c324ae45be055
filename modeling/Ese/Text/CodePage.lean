import Ese.Text.SevenBit
import Ese.Text.Utf16
import Ese.Text.Windows1252
/-!
Stored text. A column's code page says how its plain text is read; compressed text names its own
encoding in its first byte. Trailing NULs are padding and are dropped.
-/

namespace Ese.Text

def dropTrailingNuls (text : List Char) : List Char :=
  (text.reverse.dropWhile (· == '\x00')).reverse

/-- The code page number of 16-bit text. -/
def unicodeCodePage : UInt32 := 1200

def decodeUtf16 (bytes : List UInt8) : String :=
  String.ofList (dropTrailingNuls (Utf16.decode bytes))

/-- Every code page but the Unicode one is read as Windows-1252, the one in use for ASCII
columns. -/
def decodeCodePage (bytes : List UInt8) (codePage : UInt32) : String :=
  if codePage = unicodeCodePage then decodeUtf16 bytes
  else String.ofList (dropTrailingNuls (Windows1252.decode bytes))

def unpackSevenBit (bytes : List UInt8) : String := String.ofList (SevenBit.unpack bytes)

end Ese.Text
