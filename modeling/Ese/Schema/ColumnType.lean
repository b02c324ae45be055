/-!
Column types, by the numbers the catalog stores.
-/

namespace Ese

inductive ColumnType where
  | nil
  | bit
  | unsignedByte
  | short
  | long
  | currency
  | ieeeSingle
  | ieeeDouble
  | dateTime
  | binary
  | text
  | longBinary
  | longText
  | slv
  | unsignedLong
  | longLong
  | guid
  | unsignedShort
  /-- A number without a known type. -/
  | other (code : UInt32)
  deriving DecidableEq, Repr

namespace ColumnType

/-- The known types in the order of their numbers. -/
def known : List ColumnType :=
  [nil, bit, unsignedByte, short, long, currency, ieeeSingle, ieeeDouble, dateTime, binary, text,
   longBinary, longText, slv, unsignedLong, longLong, guid, unsignedShort]

def ofCode (code : UInt32) : ColumnType := known.getD code.toNat (other code)

def fixedSize : ColumnType → Option Nat
  | bit | unsignedByte => some 1
  | short | unsignedShort => some 2
  | long | unsignedLong | ieeeSingle => some 4
  | currency | ieeeDouble | dateTime | longLong => some 8
  | guid => some 16
  | nil | binary | text | longBinary | longText | slv | other _ => none

def isText (t : ColumnType) : Bool := t = text || t = longText

def name : ColumnType → String
  | nil => "Nil"
  | bit => "Bit"
  | unsignedByte => "UnsignedByte"
  | short => "Short"
  | long => "Long"
  | currency => "Currency"
  | ieeeSingle => "IeeeSingle"
  | ieeeDouble => "IeeeDouble"
  | dateTime => "DateTime"
  | binary => "Binary"
  | text => "Text"
  | longBinary => "LongBinary"
  | longText => "LongText"
  | slv => "Slv"
  | unsignedLong => "UnsignedLong"
  | longLong => "LongLong"
  | guid => "Guid"
  | unsignedShort => "UnsignedShort"
  | other _ => "Other"

end ColumnType

end Ese
