import Ese.Decimal.Binary
/-!
The shortest decimal that reads back as a given binary number. A decimal reads back if it lies in
the interval that rounds to the number; its two neighbours on the grid of one digit, two digits and
so on are tried in turn, and of two hits the nearer is taken.
-/

namespace Ese.Decimal

/-- Which of two equally near decimals is taken. -/
inductive Tie where
  | even
  | up
  deriving DecidableEq, Repr

/-- `digits * 10 ^ exponent`, where `digits` does not end in a zero. -/
structure Shortest where
  digits : Nat
  exponent : Int
  deriving DecidableEq, Repr

def digitCount (n : Nat) : Nat := (Nat.toDigits 10 n).length

/-- The exponent `e` with `10 ^ e ≤ num / den < 10 ^ (e + 1)`. -/
def leadingExponent (num den : Nat) : Int :=
  if den ≤ num then (digitCount (num / den) : Int) - 1
  else -(digitCount ((den - 1) / num) : Int)

/-- A number and the ends of its interval over one denominator. -/
structure Interval where
  low : Nat
  value : Nat
  high : Nat
  den : Nat
  closed : Bool

/-- The interval in units of a quarter of the last place. -/
def Interval.of (b : Binary) : Interval :=
  let unit := 1 <<< (b.exponent - 2).toNat
  { low := (4 * b.significand - if b.tight then 1 else 2) * unit
    value := 4 * b.significand * unit
    high := (4 * b.significand + 2) * unit
    den := 1 <<< (2 - b.exponent).toNat
    closed := b.significand % 2 = 0 }

def Interval.scale (i : Interval) (k : Int) : Interval :=
  let up := Nat.pow 10 (-k).toNat
  { low := i.low * up, value := i.value * up, high := i.high * up,
    den := i.den * Nat.pow 10 k.toNat, closed := i.closed }

def Interval.contains (i : Interval) (n : Nat) : Bool :=
  if i.closed then i.low ≤ n * i.den && n * i.den ≤ i.high
  else i.low < n * i.den && n * i.den < i.high

/-- The whole number in the interval that is nearest to the value, if one neighbour is inside. -/
def Interval.nearest? (tie : Tie) (i : Interval) : Option Nat :=
  let below := i.value / i.den
  let above := below + 1
  match i.contains below, i.contains above with
  | true, true =>
    let twice := 2 * i.value
    let middle := (2 * below + 1) * i.den
    if twice < middle then some below
    else if middle < twice then some above
    else match tie with
      | .up => some above
      | .even => if below % 2 = 0 then some below else some above
  | true, false => some below
  | false, true => some above
  | false, false => none

def dropZeros : (room : Nat) → Shortest → Shortest
  | 0, s => s
  | room + 1, s =>
    if s.digits ≠ 0 ∧ s.digits % 10 = 0 then dropZeros room ⟨s.digits / 10, s.exponent + 1⟩ else s

/-- Tries `count` digits, then one more, as long as `room` lasts. -/
def search (tie : Tie) (i : Interval) (leading : Int) : (room count : Nat) → Shortest
  | 0, _ => ⟨0, 0⟩
  | room + 1, count =>
    let k := leading - (count : Int) + 1
    match (i.scale k).nearest? tie with
    | some n => dropZeros 20 ⟨n, k⟩
    | none => search tie i leading room (count + 1)

/-- Seventeen digits are enough for every double-precision number. -/
def shortest (tie : Tie) (b : Binary) : Shortest :=
  let i := Interval.of b
  search tie i (leadingExponent i.value i.den) 17 1

end Ese.Decimal
