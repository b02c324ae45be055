import Std.Data.HashMap
import Ese.Schema.Table
import Ese.Tree.Walk
/-!
Long values. A record stores a four-byte reference; the value itself is in a tree of the table, in
segments whose key is the reference backwards and the offset of the segment. Only first segments are
looked up.
-/

namespace Ese

/-- The number of a long value, its reference bytes read highest first. -/
structure Lid where
  value : UInt32
  deriving DecidableEq, Repr

namespace Lid

def ofReference (bytes : Bytes) : Except DecodeError Lid :=
  match bytes with
  | a :: b :: c :: d :: _ => .ok ⟨UInt32.ofNat (LittleEndian.decode [d, c, b, a])⟩
  | _ => .error (.truncated .longValueReference 0 4 bytes.length)

/-- The key of the first segment: lowest byte first, then the offset zero. -/
def key (lid : Lid) : Bytes := LittleEndian.encode 4 lid.value.toNat ++ [0, 0, 0, 0]

end Lid

/-- The segments of one table's long values by their keys, the last of each key. -/
structure LongValues where
  segments : Std.HashMap Bytes Bytes := {}

namespace LongValues

def insert (lv : LongValues) (key payload : Bytes) : LongValues := ⟨lv.segments.insert key payload⟩

def get? (lv : LongValues) (lid : Lid) : Option Bytes := lv.segments[lid.key]?

def size (lv : LongValues) : Nat := lv.segments.size

def isEmpty (lv : LongValues) : Bool := lv.segments.isEmpty

def onLeaf (trace : Trace.Switches) (table : Table) (leaf : Tree.Leaf) : Run LongValues Unit := do
  let (key, payload) ← leaf.split
  Run.logIf trace.longValues
    (.longValueSegment table.name leaf.page.id key.bytes payload.length)
  modify fun j => { j with state := j.state.insert key.bytes payload }

/-- All entries of all long-value trees of a table, read with one walker. -/
def load (file : File) (trace : Trace.Switches) (table : Table) : Logged LongValues := fun log =>
  let visitor := Tree.Visitor.ofFile file trace (onLeaf trace table)
  match visitor.survey (table.longValues.map (·.root)) { log, state := {} } with
  | .ok _ j => .ok j.state (j.log.push (.longValuesIndexed table.name j.state.size))
  | .error e j => .error e j.log

end LongValues

end Ese
