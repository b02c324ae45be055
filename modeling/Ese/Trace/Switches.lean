import Ese.Json.Reader
/-!
The tracing switches and their JSON form: an object of booleans, where what is missing is off and
other fields are passed over, or the same switches as a list in order.
-/

namespace Ese.Trace

/-- Which of the verbose log events are wanted. -/
structure Switches where
  pages : Bool := false
  catalog : Bool := false
  longValues : Bool := false
  deriving DecidableEq, Repr, Inhabited

namespace Switches

def verbose : Switches := ⟨true, true, true⟩

open Json.Reader

def readBool (s : Input) : Option (Bool × Input) :=
  match skipBlanks s with
  | 't' :: s => (expect ['r', 'u', 'e'] s).map (true, ·)
  | 'f' :: s => (expect ['a', 'l', 's', 'e'] s).map (false, ·)
  | _ => none

/-- A switch not seen yet. A repeated one is refused. -/
def setOnce (seen : Option Bool) (value : Bool) : Option (Option Bool) :=
  match seen with
  | none => some (some value)
  | some _ => none

structure Seen where
  pages : Option Bool := none
  catalog : Option Bool := none
  longValues : Option Bool := none

def Seen.switches (seen : Seen) : Switches :=
  ⟨seen.pages.getD false, seen.catalog.getD false, seen.longValues.getD false⟩

def readField (room : Nat) (name : String) (seen : Seen) (s : Input) : Option (Seen × Input) := do
  if name = "pages" then
    let (value, s) ← readBool s
    return ({ seen with pages := ← setOnce seen.pages value }, s)
  else if name = "catalog" then
    let (value, s) ← readBool s
    return ({ seen with catalog := ← setOnce seen.catalog value }, s)
  else if name = "longValues" then
    let (value, s) ← readBool s
    return ({ seen with longValues := ← setOnce seen.longValues value }, s)
  else
    return (seen, ← skipValue room s)

def readFields : (room : Nat) → Seen → Input → Option (Switches × Input)
  | 0, _, _ => none
  | room + 1, seen, s => do
    let afterQuote ← expect ['"'] (skipBlanks s)
    let (units, s) ← stringUnits afterQuote
    let name := String.ofList (← textOf units)
    let s ← expect [':'] (skipBlanks s)
    let (seen, s) ← readField room name seen s
    match skipBlanks s with
    | ',' :: s => readFields room seen s
    | '\x7d' :: s => some (seen.switches, s)
    | _ => none

/-- The items of a list form, after its bracket. -/
def readItems : (room : Nat) → Input → Option (List Bool × Input)
  | 0, _ => none
  | room + 1, s => do
    let (value, s) ← readBool s
    match skipBlanks s with
    | ',' :: s =>
      let (values, s) ← readItems room s
      return (value :: values, s)
    | ']' :: s => some ([value], s)
    | _ => none

def ofList : List Bool → Option Switches
  | [] => some {}
  | [pages] => some { pages }
  | [pages, catalog] => some { pages, catalog }
  | [pages, catalog, longValues] => some { pages, catalog, longValues }
  | _ => none

/-- The switches at the front of a text, and what follows them. -/
def read (s : Input) : Option (Switches × Input) :=
  match skipBlanks s with
  | '\x7b' :: s =>
    match skipBlanks s with
    | '\x7d' :: s => some ({}, s)
    | s => readFields (2 * s.length + 2) {} s
  | '[' :: s =>
    match skipBlanks s with
    | ']' :: s => some ({}, s)
    | s => do
      let (values, s) ← readItems 3 s
      return (← ofList values, s)
  | _ => none

/-- Nothing but blanks may follow. -/
def ofJson? (text : String) : Option Switches := do
  let (switches, rest) ← read text.toList
  if skipBlanks rest = [] then some switches else none

end Switches

end Ese.Trace
