import Ese.LongValues
import Ese.Row
import Ese.Value.Scalar
/-!
Records: what they are read with, and their header. Decoding a record fills a row, one column after
the other, with remarks on what is noticed on the way.
-/

namespace Ese.Record

structure Schema where
  table : Table
  layout : Layout
  longValues : LongValues

/-- A row on its way, and the remarks on its record. -/
structure Draft where
  row : Row := {}
  remarks : List Trace.Remark := []

def Draft.events (d : Draft) : List Trace.Event := d.remarks.map .inRecord

/-- Decoding fills a draft, which keeps what it has when the record turns out broken. -/
abbrev Decode := EStateM DecodeError Draft

instance : MonadLift (Except DecodeError) Decode where
  monadLift
    | .ok a => pure a
    | .error e => throw e

def insert (c : Column) (v : Value) : Decode Unit :=
  modify fun d => { d with row := d.row.insert c.name v }

def warn (w : Warning) : Decode Unit := modify fun d => { d with row := d.row.warn w }

def remark (r : Trace.Remark) : Decode Unit :=
  modify fun d => { d with remarks := d.remarks ++ [r] }

def insertPlain (c : Column) (bytes : Bytes) : Decode Unit := do
  let value ← Value.decode c bytes
  insert c value

structure Header where
  lastFixed : UInt8
  lastVariable : UInt8
  variableOffset : UInt16
  deriving DecidableEq, Repr

namespace Header

def read (record : Bytes) : Except DecodeError Header := do
  return {
    lastFixed := ← readU8 record 0 .recordHeader
    lastVariable := ← readU8 record 1 .recordHeader
    variableOffset := ← readU16 record 2 .recordHeader }

/-- Where the variable area starts, with its directory. -/
def directoryStart (h : Header) : Nat := h.variableOffset.toNat

/-- The variable columns count from 128 on. -/
def variableCount (h : Header) : Nat := h.lastVariable.toNat - 127

def variableStart (h : Header) : Nat := h.directoryStart + 2 * h.variableCount

/-- One bit for each fixed column. -/
def bitmapLength (h : Header) : Nat := (h.lastFixed.toNat + 7) / 8

end Header

end Ese.Record
