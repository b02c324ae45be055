import Ese.Database
import Ese.Schema.Json
/-!
The command line as a function: from the arguments, the tracing switches and the bytes of the file
to the lines on both outputs, the exit code and the log.
-/

namespace Ese.Command

structure Report where
  stdout : List String := []
  stderr : List String := []
  exitCode : UInt8 := 0
  log : Array Trace.Event := #[]

def usage : List String :=
  ["Usage: esedump <db_path> <command> [args...]",
   "Commands:",
   "  header          - Show file header fields",
   "  tables          - List tables",
   "  schema <table>  - Show a table's columns, indexes and long-value trees",
   "  dump <table>    - Print every row of a table",
   "Set ESEDUMP_TRACE to a JSON object such as \x7b\"pages\":true\x7d for verbose tracing.",
   "RUST_LOG overrides the log filter (default: warn, or ese_reader=debug with ESEDUMP_TRACE)."]

def failure (message : String) : Report := { stderr := [message], exitCode := 1 }

def header (db : Database) : Report :=
  let h := db.file.header
  { stdout :=
      ["format_version: " ++ Text.Hex.literal h.version.toNat,
       "format_revision: " ++ Text.Hex.literal h.revision.toNat,
       s!"page_size: {h.pageSize.toNat}",
       s!"file_type: {h.fileType.toNat}",
       "database_state: " ++ h.state.name,
       s!"page_count: {db.stats.pageCount}",
       s!"table_count: {db.stats.tableCount}"] }

def tables (db : Database) : Report :=
  { stdout := db.summaries.map fun s => s.toJson.render }

def schema (db : Database) (args : List String) : Report :=
  match args with
  | [] => failure "Usage: esedump <db_path> schema <table>"
  | name :: _ =>
    match db.catalog.table? name with
    | some table => { stdout := [table.toJson.render] }
    | none => failure ("ERROR: " ++ (Error.tableNotFound name).message)

structure Lines where
  stdout : Array String := #[]
  stderr : Array String := #[]

/-- A row is one line of JSON; its warnings go to the other output. -/
def printRow (row : Row) : Callback Lines Unit :=
  modify fun lines =>
    { stdout := lines.stdout.push row.toJson.render
      stderr := lines.stderr ++ (row.warnings.map fun w => "WARNING: " ++ w.message) }

def dumpEnd (result : Except Error DumpStats) : List String × UInt8 :=
  match result with
  | .ok stats => ([s!"ROWS: {stats.rows}", s!"WARNINGS: {stats.warnings}"], 0)
  | .error (.rowErrors decoded errors) =>
    (s!"ROWS: {decoded}" :: errors.map fun e => "ERROR: " ++ e.message, 2)
  | .error e => (["ERROR: " ++ e.message], 1)

def dump (db : Database) (args : List String) (log : Array Trace.Event) : Report :=
  match args with
  | [] => { failure "Usage: esedump <db_path> dump <table>" with log }
  | name :: _ =>
    let (result, journal) : Except Error DumpStats × Journal Lines :=
      match db.dumpTable name printRow { log, state := {} } with
      | .ok stats j => (.ok stats, j)
      | .error e j => (.error e, j)
    let (last, exitCode) := dumpEnd result
    { stdout := journal.state.stdout.toList
      stderr := journal.state.stderr.toList ++ last
      exitCode
      log := journal.log }

def runOn (db : Database) (command : String) (args : List String) (log : Array Trace.Event) :
    Report :=
  if command = "header" then { header db with log }
  else if command = "tables" then { tables db with log }
  else if command = "schema" then { schema db args with log }
  else if command = "dump" then dump db args log
  else { failure ("Unknown command: " ++ command) with log }

/-- The file is looked at before the command is. -/
def runFile (switches : Trace.Switches) (source : Except Error ByteArray) (command : String)
    (args : List String) : Report :=
  let unopened (e : Error) : Report := failure ("ERROR: Failed to open database: " ++ e.message)
  match source with
  | .error e => unopened e
  | .ok bytes =>
    match Database.open? bytes switches #[] with
    | .ok db log => runOn db command args log
    | .error e log => { unopened e with log }

def invalidTrace : String := "ERROR: Invalid ESEDUMP_TRACE:"

/-- A whole run. `source` is the file behind a path, `trace` the text of the switches if it is
set. -/
def run (source : String → Except Error ByteArray) (trace : Option String) (args : List String) :
    Report :=
  match args with
  | path :: command :: rest =>
    match trace with
    | none => runFile {} (source path) command rest
    | some text =>
      match Trace.Switches.ofJson? text with
      | some switches => runFile switches (source path) command rest
      | none => failure invalidTrace
  | _ => { stderr := usage, exitCode := 1 }

/-- The events that are shown: all but the finest once tracing is asked for, else warnings only. -/
def shown (trace : Option String) (log : Array Trace.Event) : List Trace.Event :=
  log.toList.filter fun e => if trace.isSome then e.level ≠ .trace else e.level = .warn

end Ese.Command
