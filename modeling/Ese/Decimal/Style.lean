import Ese.Decimal.Shortest
/-!
How a decimal is laid out. A `Style` holds the decisions of one text format; `render` follows them.
-/

namespace Ese.Decimal

/-- Which numbers are written out in full: those whose leading digit stands for a power of ten in
this range. -/
structure Positional where
  least : Option Int
  below : Option Int
  deriving Repr

structure Style where
  tie : Tie
  positional : Positional
  /-- Whether a whole number still gets a point and a zero. -/
  keepsPoint : Bool
  nan : String
  infinite : String
  negativeInfinite : String

/-- The form inside JSON: in full from `1e-5` up to below `1e16`, and no text for what is not
finite. -/
def jsonStyle : Style where
  tie := .even
  positional := ⟨some (-5), some 16⟩
  keepsPoint := true
  nan := "null"
  infinite := "null"
  negativeInfinite := "null"

/-- The form for people: always in full. -/
def plainStyle : Style where
  tie := .up
  positional := ⟨none, none⟩
  keepsPoint := false
  nan := "NaN"
  infinite := "inf"
  negativeInfinite := "-inf"

def Positional.includes (p : Positional) (leading : Int) : Bool :=
  p.least.all (· ≤ leading) && p.below.all (leading < ·)

def zeros (n : Nat) : List Char := List.replicate n '0'

def renderPositional (keepsPoint : Bool) (s : Shortest) : List Char :=
  let digits := Nat.toDigits 10 s.digits
  let whole := (digits.length : Int) + s.exponent
  if 0 ≤ s.exponent then
    digits ++ zeros s.exponent.toNat ++ if keepsPoint then ['.', '0'] else []
  else if 0 < whole then digits.take whole.toNat ++ '.' :: digits.drop whole.toNat
  else '0' :: '.' :: zeros (-whole).toNat ++ digits

/-- One digit before the point and a power of ten behind. -/
def renderScientific (s : Shortest) (leading : Int) : List Char :=
  let power := (if leading < 0 then '-' else '+') :: Nat.toDigits 10 leading.natAbs
  match Nat.toDigits 10 s.digits with
  | [] => []
  | [d] => d :: 'e' :: power
  | d :: rest => d :: '.' :: rest ++ 'e' :: power

def renderFinite (style : Style) (b : Binary) : List Char :=
  let s := shortest style.tie b
  let leading := (digitCount s.digits : Int) + s.exponent - 1
  if style.positional.includes leading then renderPositional style.keepsPoint s
  else renderScientific s leading

/-- The text of a double-precision number, given by its bits. -/
def render (style : Style) (bits : UInt64) : String :=
  let signed (text : List Char) : String :=
    String.ofList (if isNegative bits then '-' :: text else text)
  match magnitude bits with
  | .nan => style.nan
  | .infinite => if isNegative bits then style.negativeInfinite else style.infinite
  | .zero => signed (if style.keepsPoint then ['0', '.', '0'] else ['0'])
  | .finite b => signed (renderFinite style b)

end Ese.Decimal
