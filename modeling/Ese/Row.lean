import Ese.Value.Basic
/-!
Rows: the columns that have a value, in the order in which they were decoded, and warnings about the
values that were left as they are stored.
-/

namespace Ese

/-- A value that is not what the column's type promises. -/
inductive Warning where
  /-- Compressed text, returned compressed. -/
  | lzxpress (column : String)
  /-- A reference to a long value that is not there, returned itself. -/
  | missingLongValue (column : String) (lid : UInt32)
  /-- Several values in one, returned as stored. -/
  | multiValue (column : String)
  deriving DecidableEq, Repr

namespace Warning

def column : Warning → String
  | lzxpress c => c
  | missingLongValue c _ => c
  | multiValue c => c

def message : Warning → String
  | lzxpress c => c ++ ": LZXPRESS data left compressed"
  | missingLongValue c lid => c ++ ": long value " ++ Text.Hex.word lid ++ " not found"
  | multiValue c => c ++ ": multi-valued data left raw"

def toJson : Warning → Json
  | lzxpress c => .object [("kind", .string "lzxpress"), ("column", .string c)]
  | missingLongValue c lid =>
    .object [
      ("kind", .string "missingLongValue"),
      ("column", .string c),
      ("lid", .ofNat lid.toNat)]
  | multiValue c => .object [("kind", .string "multiValue"), ("column", .string c)]

end Warning

structure Row where
  columns : List (String × Value) := []
  warnings : List Warning := []
  deriving DecidableEq, Repr

namespace Row

def insert (r : Row) (name : String) (value : Value) : Row :=
  { r with columns := r.columns ++ [(name, value)] }

def warn (r : Row) (w : Warning) : Row := { r with warnings := r.warnings ++ [w] }

def get? (r : Row) (name : String) : Option Value :=
  (r.columns.find? fun c => c.1 = name).map (·.2)

def names (r : Row) : List String := r.columns.map (·.1)

def size (r : Row) : Nat := r.columns.length

def isEmpty (r : Row) : Bool := r.columns.isEmpty

/-- An object with one field per value, repeated names included. -/
def toJson (r : Row) : Json := .object (r.columns.map fun c => (c.1, c.2.toJson))

end Row

end Ese
