import Mathlib
import Ese.Build.Record
import Ese.Record.Decode
/-!
Reference rows: what a record says, without the bytes in between. A record is a list of fields, each
field of a known column makes at most one cell, and the cells in order are the row. No layout occurs
in any of this.
-/

namespace Ese.Record

/-- A value of a row and the warning about it, if there is one. -/
structure Cell where
  column : String
  value : Value
  warning : Option Warning := none
  deriving DecidableEq

def addCells (row : Row) (cells : List Cell) : Row where
  columns := row.columns ++ cells.map fun c => (c.column, c.value)
  warnings := row.warnings ++ cells.filterMap (·.warning)

@[simp] theorem addCells_nil (row : Row) : addCells row [] = row := by
  simp [addCells]

@[simp] theorem addCells_addCells (row : Row) (a b : List Cell) :
    addCells (addCells row a) b = addCells row (a ++ b) := by
  simp [addCells]

def rowOf (cells : List Cell) : Row := addCells {} cells

def plainCell (c : Column) (bytes : Bytes) : Except DecodeError Cell :=
  (Value.decode c bytes).map fun v => ⟨c.name, v, none⟩

/-- Text that is marked as compressed is classified, all else is plain. -/
def contentCell (c : Column) (compressed : Bool) (bytes : Bytes) : Except DecodeError Cell :=
  if compressed && c.type.isText then
    match Text.Compressed.decode bytes with
    | some text => .ok ⟨c.name, .string text, none⟩
    | none => .ok ⟨c.name, .bytes bytes, some (.lzxpress c.name)⟩
  else plainCell c bytes

/-- A reference gives the long value it names, or itself if that is missing. -/
def longValueCell (longValues : LongValues) (c : Column) (compressed : Bool) (reference : Bytes) :
    Except DecodeError Cell := do
  let lid ← Lid.ofReference reference
  match longValues.get? lid with
  | some content => contentCell c compressed content
  | none => .ok ⟨c.name, .bytes reference, some (.missingLongValue c.name lid.value)⟩

/-- The cell of a tagged value, as its flag byte says. A null value makes none. -/
def taggedCells (longValues : LongValues) (c : Column) (flags : ValueFlags) (bytes : Bytes) :
    Except DecodeError (List Cell) :=
  if flags.null then .ok []
  else if flags.multiple then .ok [⟨c.name, .bytes bytes, some (.multiValue c.name)⟩]
  else if flags.longValue then (longValueCell longValues c flags.compressed bytes).map ([·])
  else (contentCell c flags.compressed bytes).map ([·])

def both (x y : Except DecodeError (List Cell)) : Except DecodeError (List Cell) := do
  return (← x) ++ (← y)

def joined {α : Type} (f : α → Except DecodeError (List Cell)) (fields : List α) :
    Except DecodeError (List Cell) :=
  (fields.mapM f).map List.flatten

theorem joined_cons {α : Type} (f : α → Except DecodeError (List Cell)) (x : α) (fields : List α) :
    joined f (x :: fields) = both (f x) (joined f fields) := by
  unfold joined both
  rw [List.mapM_cons]
  cases f x with
  | error e => rfl
  | ok cells => cases fields.mapM f <;> rfl

end Ese.Record

namespace Ese.Build.Record

open Ese.Record

def presentFixed (r : Record) : List (UInt32 × Bytes) :=
  (r.fixed.zipIdx 1).filterMap fun (f, id) => if f.isNull then none else some (.ofNat id, f.data)

def presentVariable (r : Record) : List (UInt32 × Bytes) :=
  (r.varying.zipIdx 128).filterMap fun (v, id) => v.map (UInt32.ofNat id, ·)

/-- The cells of a plain value. A column that is not in the table makes none. -/
def plainCells (table : Table) (field : UInt32 × Bytes) : Except DecodeError (List Cell) :=
  match table.columns.byId? field.1 with
  | some c => (plainCell c field.2).map ([·])
  | none => .ok []

def fieldCells (table : Table) (longValues : LongValues) (t : TaggedField) :
    Except DecodeError (List Cell) :=
  match table.columns.byId? t.id.toUInt32 with
  | some c => taggedCells longValues c ⟨t.flags⟩ t.data
  | none => .ok []

def cells (r : Record) (table : Table) (longValues : LongValues) : Except DecodeError (List Cell) :=
  both (joined (plainCells table) r.presentFixed)
    (both (joined (plainCells table) r.presentVariable)
      (joined (fieldCells table longValues) r.tagged))

/-- The row that a record stands for, or the error of the first value that has no form. -/
def reference (r : Record) (table : Table) (longValues : LongValues) : Except DecodeError Row :=
  (r.cells table longValues).map rowOf

end Ese.Build.Record
