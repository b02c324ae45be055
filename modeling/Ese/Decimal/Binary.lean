/-!
The parts of a binary floating-point number, taken from its bits: a sign and a whole number times a
power of two. Single precision is widened to double precision without rounding.
-/

namespace Ese.Decimal

/-- A positive number `significand * 2 ^ exponent`. `tight` says that the next number below is only
half as far away as the next one above. -/
structure Binary where
  significand : Nat
  exponent : Int
  tight : Bool

inductive Magnitude where
  | nan
  | infinite
  | zero
  | finite (value : Binary)

/-- The fractions of double precision: 52 bits. -/
def fractions : Nat := 0x10000000000000

/-- The fractions of single precision: 23 bits. -/
def singleFractions : Nat := 0x800000

def isNegative (bits : UInt64) : Bool := bits >>> 63 != 0

/-- A double-precision number without its sign. -/
def magnitude (bits : UInt64) : Magnitude :=
  let exponent := (bits >>> 52).toNat % 2048
  let fraction := bits.toNat % fractions
  if exponent = 2047 then (if fraction = 0 then .infinite else .nan)
  else if exponent = 0 then (if fraction = 0 then .zero else .finite ⟨fraction, -1074, false⟩)
  else .finite ⟨fraction + fractions, exponent - 1075, fraction = 0 && exponent > 1⟩

def isNan (bits : UInt64) : Bool :=
  match magnitude bits with
  | .nan => true
  | _ => false

/-- The double-precision bits of a single-precision number. A subnormal single is a normal double,
so its fraction is shifted until the leading bit falls off. -/
def widen (bits : UInt32) : UInt64 :=
  let sign := if bits >>> 31 = 0 then 0 else 2048
  let exponent := (bits >>> 23).toNat % 256
  let fraction := bits.toNat % singleFractions
  let pack (exponent fraction : Nat) : UInt64 :=
    UInt64.ofNat ((sign + exponent) * fractions + fraction)
  if exponent = 255 then
    pack 2047 (if fraction = 0 then 0 else fraction <<< 29 ||| fractions / 2)
  else if exponent = 0 then
    if fraction = 0 then pack 0 0
    else
      let top := fraction.log2
      pack (874 + top) ((fraction - 1 <<< top) <<< (52 - top))
  else pack (exponent + 896) (fraction <<< 29)

end Ese.Decimal
