import Ese.Catalog.Builder
import Ese.Record.Decode
/-!
A database: an open file and its catalog. Its tables are dumped row by row; rows that cannot be
decoded do not stop a dump, and are reported together when it is through.
-/

namespace Ese

structure Database where
  file : File
  catalog : Catalog
  trace : Trace.Switches

structure DumpStats where
  rows : Nat := 0
  warnings : Nat := 0
  deriving DecidableEq, Repr

/-- A dump on its way: the counts, the broken rows and the state of the caller. -/
structure Dump (σ : Type) where
  stats : DumpStats := {}
  failures : List RowError := []
  state : σ

namespace Dump

variable {σ : Type}

/-- The row of a leaf entry. The remarks on the record are logged even if the row turns out
broken. -/
def decodeLeaf (schema : Record.Schema) (leaf : Tree.Leaf) :
    Run (Dump σ) (Except DecodeError Row) := do
  match leaf.split with
  | .error e => return .error e
  | .ok (_, payload) =>
    match Record.decodeInto schema payload {} with
    | .ok () draft =>
      draft.events.forM Run.log
      return .ok draft.row
    | .error e draft =>
      draft.events.forM Run.log
      return .error e

def count (row : Row) (d : Dump σ) : Dump σ :=
  { d with stats := ⟨d.stats.rows + 1, d.stats.warnings + row.warnings.length⟩ }

def fail (e : RowError) (d : Dump σ) : Dump σ := { d with failures := d.failures ++ [e] }

/-- Hands a row to the caller. -/
def deliver (onRow : Row → Callback σ Unit) (row : Row) : Callback (Dump σ) Unit := fun d =>
  match onRow row d.state with
  | .ok () s => .ok () { d with state := s }
  | .error e s => .error e { d with state := s }

/-- One leaf entry of a table. Pages that hold no records are passed over. -/
def onLeaf (schema : Record.Schema) (onRow : Row → Callback σ Unit) (leaf : Tree.Leaf) :
    Run (Dump σ) Unit := do
  if leaf.page.header.holdsRecords then
    match ← decodeLeaf schema leaf with
    | .ok row =>
      Run.ofCallback (modify (count row))
      Run.ofCallback (deliver onRow row)
    | .error reason =>
      let failure : RowError := ⟨leaf.page.id, leaf.value.index, reason⟩
      Run.log (.rowFailed schema.table.name failure)
      Run.ofCallback (modify (fail failure))

/-- The counts, unless a row was broken. -/
def result (d : Dump σ) : Except Error DumpStats :=
  if d.failures.isEmpty then .ok d.stats else .error (.rowErrors d.stats.rows d.failures)

end Dump

namespace Database

def open? (source : ByteArray) (trace : Trace.Switches) : Logged Database := fun log =>
  match File.ofBytes source with
  | .error e => .error (.decode e) log
  | .ok file =>
    let log := if file.header.state = .dirtyShutdown then log.push .dirtyShutdown else log
    match Catalog.load file trace (log.push (.opened file.layout)) with
    | .ok catalog log => .ok { file, catalog, trace } log
    | .error e log => .error e log

def tableNames (db : Database) : List String := db.catalog.tableNames

def summaries (db : Database) : List Table.Summary := db.catalog.tables.map Table.summary

structure Stats where
  formatVersion : UInt32
  formatRevision : UInt32
  pageSize : Nat
  pageCount : Nat
  tableCount : Nat
  deriving DecidableEq, Repr

def stats (db : Database) : Stats where
  formatVersion := db.file.layout.version
  formatRevision := db.file.layout.revision
  pageSize := db.file.pageSize
  pageCount := db.file.pageCount
  tableCount := db.catalog.tables.length

variable {σ : Type}

def dumpRows (file : File) (trace : Trace.Switches) (schema : Record.Schema)
    (onRow : Row → Callback σ Unit) : Run σ DumpStats := fun j =>
  let table := schema.table
  let visitor := Tree.Visitor.ofFile file trace (Dump.onLeaf schema onRow)
  match visitor.survey [table.root] { log := j.log, state := { state := j.state } } with
  | .error e j => .error e { log := j.log, state := j.state.state }
  | .ok pages j =>
    let dump := j.state
    let log := j.log.push
      (.tableDumped table.name dump.stats.rows dump.failures.length pages)
    match dump.result with
    | .ok stats => .ok stats { log, state := dump.state }
    | .error e => .error e { log, state := dump.state }

/-- Decodes every row of a table in page order. An error of `onRow` ends the dump and is its
answer. -/
def dump (file : File) (catalog : Catalog) (trace : Trace.Switches) (name : String)
    (onRow : Row → Callback σ Unit) : Run σ DumpStats := do
  match catalog.table? name with
  | none => throw (.tableNotFound name)
  | some table =>
    let longValues ← Run.ofLogged (LongValues.load file trace table)
    dumpRows file trace ⟨table, file.layout, longValues⟩ onRow

def dumpTable (db : Database) (name : String) (onRow : Row → Callback σ Unit) : Run σ DumpStats :=
  dump db.file db.catalog db.trace name onRow

end Database

end Ese
