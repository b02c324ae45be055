/-!
The pieces of a JSON text, each read off the front of a list of characters: blanks, strings, numbers
and whole values to be passed over. A reader answers with the rest of the text, or not at all.
-/

namespace Ese.Json.Reader

abbrev Input := List Char

def isBlank (c : Char) : Bool := c == ' ' || c == '\n' || c == '\t' || c == '\r'

def skipBlanks (s : Input) : Input := s.dropWhile isBlank

def expect : (word : List Char) → Input → Option Input
  | [], s => some s
  | w :: word, c :: s => if c = w then expect word s else none
  | _ :: _, [] => none

def hexValue (c : Char) : Option Nat :=
  if '0' ≤ c ∧ c ≤ '9' then some (c.toNat - '0'.toNat)
  else if 'a' ≤ c ∧ c ≤ 'f' then some (c.toNat - 'a'.toNat + 10)
  else if 'A' ≤ c ∧ c ≤ 'F' then some (c.toNat - 'A'.toNat + 10)
  else none

/-- What one step inside a string gives: a character, or half of one written as an escape. -/
inductive Unit where
  | char (c : Char)
  | escaped (unit : Nat)

/-- The rest of a string after its opening quote, as units. Bare control characters are refused. -/
def stringUnits : Input → Option (List Unit × Input)
  | [] => none
  | '"' :: s => some ([], s)
  | '\\' :: 'u' :: a :: b :: c :: d :: s => do
    let unit := (← hexValue a) * 4096 + (← hexValue b) * 256 + (← hexValue c) * 16 + (← hexValue d)
    let (units, rest) ← stringUnits s
    return (.escaped unit :: units, rest)
  | '\\' :: e :: s => do
    let c ← match e with
      | '"' => some '"'
      | '\\' => some '\\'
      | '/' => some '/'
      | 'b' => some '\x08'
      | 'f' => some '\x0c'
      | 'n' => some '\n'
      | 'r' => some '\r'
      | 't' => some '\t'
      | _ => none
    let (units, rest) ← stringUnits s
    return (.char c :: units, rest)
  | ['\\'] => none
  | c :: s => do
    if c.toNat < 0x20 then none
    let (units, rest) ← stringUnits s
    return (.char c :: units, rest)

/-- The text that units stand for. Half of a surrogate pair on its own has none. -/
def textOf : List Unit → Option (List Char)
  | [] => some []
  | .char c :: units => (textOf units).map (c :: ·)
  | .escaped unit :: units =>
    if 0xD800 ≤ unit ∧ unit < 0xDC00 then
      match units with
      | .escaped low :: units' =>
        if 0xDC00 ≤ low ∧ low < 0xE000 then
          (textOf units').map
            (Char.ofNat (0x10000 + (unit - 0xD800) * 0x400 + (low - 0xDC00)) :: ·)
        else none
      | _ => none
    else if 0xDC00 ≤ unit ∧ unit < 0xE000 then none
    else (textOf units).map (Char.ofNat unit :: ·)

def skipDigits (s : Input) : Option Input :=
  match s with
  | c :: s => if c.isDigit then some (s.dropWhile Char.isDigit) else none
  | [] => none

def skipFraction (s : Input) : Option Input :=
  match s with
  | '.' :: s => skipDigits s
  | s => some s

def skipExponent (s : Input) : Option Input :=
  match s with
  | c :: s =>
    if c = 'e' ∨ c = 'E' then
      match s with
      | '+' :: s => skipDigits s
      | '-' :: s => skipDigits s
      | s => skipDigits s
    else some (c :: s)
  | [] => some []

/-- A number after its sign. A leading zero stands alone. -/
def skipUnsigned (s : Input) : Option Input := do
  let rest ← match s with
    | '0' :: c :: s => if c.isDigit then none else some (c :: s)
    | s => skipDigits s
  skipExponent (← skipFraction rest)

def skipNumber (s : Input) : Option Input :=
  match s with
  | '-' :: s => skipUnsigned s
  | s => skipUnsigned s

mutual

/-- Passes over one value. `room` bounds the nesting of calls: no character costs more than two. -/
def skipValue : (room : Nat) → Input → Option Input
  | 0, _ => none
  | room + 1, s =>
    match skipBlanks s with
    | '"' :: s => (stringUnits s).map (·.2)
    | '[' :: s =>
      match skipBlanks s with
      | ']' :: s => some s
      | s => skipItems room s
    | '\x7b' :: s =>
      match skipBlanks s with
      | '\x7d' :: s => some s
      | s => skipFields room s
    | 't' :: s => expect ['r', 'u', 'e'] s
    | 'f' :: s => expect ['a', 'l', 's', 'e'] s
    | 'n' :: s => expect ['u', 'l', 'l'] s
    | s => skipNumber s

def skipItems : (room : Nat) → Input → Option Input
  | 0, _ => none
  | room + 1, s => do
    match skipBlanks (← skipValue room s) with
    | ',' :: s => skipItems room s
    | ']' :: s => some s
    | _ => none

def skipFields : (room : Nat) → Input → Option Input
  | 0, _ => none
  | room + 1, s => do
    let afterQuote ← expect ['"'] (skipBlanks s)
    let (_, s) ← stringUnits afterQuote
    let s ← expect [':'] (skipBlanks s)
    match skipBlanks (← skipValue room s) with
    | ',' :: s => skipFields room s
    | '\x7d' :: s => some s
    | _ => none

end

end Ese.Json.Reader
