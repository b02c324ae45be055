import Mathlib
import Ese.Command
import Ese.Proofs.Database.RowErrors
import Ese.Proofs.Database.Simulation
import Ese.Proofs.Json.Rendering
import Ese.Proofs.Record.Errors
/-!
The command that dumps a table. It prints what the dump hands over while the dump goes on, and
counts what the dump counts when it is through. Both come to the same: a line for each row, a line
for each warning, and the totals or what went wrong behind them.
-/

namespace Ese

open Ese.Text Ese.Tree

/-! What a dump delivers -/

namespace Database

/-- The rows that a dump hands over to a caller that takes them all, and its answer. -/
def delivery (db : Database) (name : String) (log : Array Trace.Event) :
    List Row × Except Error DumpStats :=
  match db.dumpTable name Build.keepRows ⟨log, []⟩ with
  | .ok stats j => (j.state, .ok stats)
  | .error e j => (j.state, .error e)

inductive Delivers (db : Database) (name : String) : List Row × Except Error DumpStats → Prop where
  | unknown : Delivers db name ([], .error (.tableNotFound name))
  | lost {e : Error} : e.Wordless → Delivers db name ([], .error e)
  | walked {table : Table} {longValues : LongValues} : db.catalog.table? name = some table →
    Delivers db name
      (Dump.delivered ⟨table, db.file.layout, longValues⟩ (harvest db.file table.root).1,
        (harvest db.file table.root).2 >>= fun _ => Dump.tally
          (Dump.delivered ⟨table, db.file.layout, longValues⟩ (harvest db.file table.root).1)
          (Dump.failed ⟨table, db.file.layout, longValues⟩ (harvest db.file table.root).1))

theorem forM_keepRows (rows kept : List Row) :
    rows.forM Build.keepRows kept = .ok () (kept ++ rows) := by
  induction rows generalizing kept with
  | nil => rw [List.append_nil]; rfl
  | cons row rows ih =>
    have hrow : Build.keepRows row kept = .ok () (kept ++ [row]) := rfl
    rw [forM_cons_apply, hrow]
    simp only [ih, List.append_assoc, List.cons_append, List.nil_append]

theorem onState_keepRows (file : File) (trace : Trace.Switches) (schema : Record.Schema)
    (log : Array Trace.Event) :
    Run.onState (dumpRows file trace schema Build.keepRows ⟨log, []⟩) =
      conclude ((harvest file schema.table.root).2 >>= fun _ =>
        Dump.tally (Dump.delivered schema (harvest file schema.table.root).1)
          (Dump.failed schema (harvest file schema.table.root).1))
        (Dump.delivered schema (harvest file schema.table.root).1) := by
  rw [Dump.onState_dumpRows, Dump.outcome, harvest_eq]
  dsimp only
  rw [bind_apply, forM_keepRows, List.nil_append]
  dsimp only
  cases (trail file.readPage schema.table.root {}).2 <;> rfl

theorem delivers (db : Database) (name : String) (log : Array Trace.Event) :
    Delivers db name (db.delivery name log) := by
  unfold delivery dumpTable dump
  cases htable : db.catalog.table? name with
  | none => exact .unknown
  | some table =>
    simp only [bind_apply, Run.ofLogged]
    cases hload : LongValues.load db.file db.trace table log with
    | error e log' => exact .lost (LongValues.failsFrom_load _ _ _ log e log' hload)
    | ok longValues log' =>
      have hwalked := @Delivers.walked db name table longValues htable
      have hrows := onState_keepRows db.file db.trace ⟨table, db.file.layout, longValues⟩ log'
      generalize (harvest db.file table.root).2 >>= _ = result at hwalked hrows
      dsimp only
      cases hdump : dumpRows db.file db.trace ⟨table, db.file.layout, longValues⟩ Build.keepRows
          ⟨log', []⟩ with
      | ok stats j =>
        rw [hdump] at hrows
        cases result with
        | error e => cases hrows
        | ok stats' =>
          obtain ⟨rfl, hstate⟩ := EStateM.Result.ok.inj hrows
          rw [← hstate] at hwalked
          exact hwalked
      | error e j =>
        rw [hdump] at hrows
        cases result with
        | ok stats => cases hrows
        | error e' =>
          obtain ⟨rfl, hstate⟩ := EStateM.Result.error.inj hrows
          rw [← hstate] at hwalked
          exact hwalked

/-- The text is the name that was asked for, or that of a column of the table. -/
def Mentions (db : Database) (name text : String) : Prop :=
  text = name ∨ ∃ table, db.catalog.table? name = some table ∧ Record.Named table text

namespace Delivers

variable {db : Database} {name : String} {d : List Row × Except Error DumpStats}

theorem of_tally_ok {rows : List Row} {failures : List RowError} {walked : Except Error Unit}
    {stats : DumpStats} (h : (walked >>= fun _ => Dump.tally rows failures) = .ok stats) :
    stats = ⟨rows.length, Dump.warningCount rows⟩ := by
  obtain ⟨-, -, h⟩ := Outcome.of_bind_ok h
  by_cases hall : failures = []
  · rw [Dump.tally_ok hall] at h
    exact (Except.ok.inj h).symm
  · rw [Dump.tally_error hall] at h
    cases h

/-- A walk with its rows counted fails as the walk does, or for the broken rows. -/
theorem of_tally_error {rows : List Row} {failures : List RowError} {walked : Except Error Unit}
    {e : Error} (h : (walked >>= fun _ => Dump.tally rows failures) = .error e) :
    walked = .error e ∨ e = .rowErrors rows.length failures := by
  rcases walked with e' | u
  · cases h
    exact .inl rfl
  · refine .inr ?_
    change Dump.tally rows failures = _ at h
    by_cases hall : failures = []
    · rw [Dump.tally_ok hall] at h
      cases h
    · rw [Dump.tally_error hall] at h
      exact (Except.error.inj h).symm

theorem stats (h : Delivers db name d) {stats : DumpStats} (hd : d.2 = .ok stats) :
    stats = ⟨d.1.length, Dump.warningCount d.1⟩ := by
  cases h with
  | unknown => cases hd
  | lost => cases hd
  | walked => exact of_tally_ok hd

/-- Each error is one of a list of broken rows, about the file, or that there is no such table. -/
theorem error (h : Delivers db name d) {e : Error} (hd : d.2 = .error e) :
    e = .tableNotFound name ∨ e.Wordless ∨ ∃ errors, e = .rowErrors d.1.length errors ∧
      ∀ r ∈ errors, ∀ text ∈ r.reason.texts, db.Mentions name text := by
  cases h with
  | unknown => exact .inl (Except.error.inj hd).symm
  | lost he => exact .inr (.inl (Except.error.inj hd ▸ he))
  | @walked table longValues htable =>
    rcases of_tally_error hd with hwalk | rfl
    · exact .inr (.inl ((pagesFail_wordless db.file).harvest hwalk))
    refine .inr (.inr ⟨_, rfl, fun r hr text htext => .inr ⟨table, htable, ?_⟩⟩)
    obtain ⟨l, -, hl⟩ := List.mem_filterMap.mp hr
    cases hrow : Dump.entryRow ⟨table, db.file.layout, longValues⟩ l with
    | ok row =>
      rw [hrow] at hl
      cases hl
    | error reason =>
      rw [hrow] at hl
      cases hl
      unfold Dump.entryRow at hrow
      rcases hsplit : l.split with e | ⟨key, payload⟩
      · have hwordless := l.fails_split e hsplit
        rw [hsplit] at hrow
        cases hrow
        rw [show reason.texts = [] from hwordless] at htext
        cases htext
      · rw [hsplit] at hrow
        exact Record.namesColumns_of_decode hrow text htext

theorem warnings (h : Delivers db name d) {row : Row} (hrow : row ∈ d.1) {w : Warning}
    (hw : w ∈ row.warnings) : db.Mentions name w.column := by
  cases h with
  | unknown => cases hrow
  | lost => cases hrow
  | @walked table longValues htable =>
    refine .inr ⟨table, htable, ?_⟩
    obtain ⟨l, -, hl⟩ := List.mem_filterMap.mp hrow
    cases hentry : Dump.entryRow ⟨table, db.file.layout, longValues⟩ l with
    | error e =>
      rw [hentry] at hl
      cases hl
    | ok row' =>
      rw [hentry] at hl
      cases hl
      obtain ⟨_, -, hdecode⟩ := Outcome.of_bind_ok hentry
      exact Record.named_of_decode hdecode hw

end Delivers

end Database

/-! What is printed -/

namespace Command

/-- The switches that a run is asked for, unless they are not well-formed. -/
def switches? : Option String → Option Trace.Switches
  | none => some {}
  | some text => Trace.Switches.ofJson? text

def warningLines (rows : List Row) : List String :=
  rows.flatMap fun row => row.warnings.map fun w => "WARNING: " ++ w.message

def rowLines (rows : List Row) : Lines where
  stdout := (rows.map fun row => row.toJson.render).toArray
  stderr := (warningLines rows).toArray

theorem seen_printRow (row : Row) : Seen rowLines (Build.keepRows row) (printRow row) := by
  refine Seen.modify fun rows => ?_
  simp [rowLines, warningLines]

theorem length_warningLines (rows : List Row) :
    (warningLines rows).length = Dump.warningCount rows := by
  simp [warningLines, Dump.warningCount, List.length_flatMap]

structure InlineNames (db : Database) (name : String) : Prop where
  table : Inline name
  columns : ∀ table, db.catalog.table? name = some table → ∀ c ∈ table.columns.toList, Inline c.name

theorem InlineNames.mentions {db : Database} {name text : String} (h : InlineNames db name)
    (htext : db.Mentions name text) : Inline text := by
  rcases htext with rfl | ⟨table, htable, c, hc, rfl⟩
  · exact h.table
  · exact h.columns table htable c hc

/-- A dump of these rows, with this answer, as it is reported. -/
structure Reports (db : Database) (name : String) (rows : List Row)
    (result : Except Error DumpStats) (report : Report) : Prop where
  /-- One line for each row, in order. -/
  stdout : report.stdout = rows.map fun row => row.toJson.render
  inlineRows : ∀ line ∈ report.stdout, Inline line
  /-- So the lines can be read off what is printed. -/
  printedRows : linesOf (printed report.stdout) = report.stdout
  /-- The totals are those of the lines. -/
  ok : ∀ stats, result = .ok stats → report.exitCode = 0 ∧
    report.stderr = warningLines rows ++
      [s!"ROWS: {report.stdout.length}", s!"WARNINGS: {(warningLines rows).length}"]
  broken : ∀ decoded errors, result = .error (.rowErrors decoded errors) → report.exitCode = 2 ∧
    report.stderr = warningLines rows ++ s!"ROWS: {report.stdout.length}" ::
      errors.map fun e => "ERROR: " ++ e.message
  failed : ∀ e, result = .error e → (∀ decoded errors, e ≠ .rowErrors decoded errors) →
    report.exitCode = 1 ∧ report.stderr = warningLines rows ++ ["ERROR: " ++ e.message]
  inlineMessages : InlineNames db name → ∀ line ∈ report.stderr, Inline line
  printedMessages : InlineNames db name → linesOf (printed report.stderr) = report.stderr

structure Unopened (report : Report) : Prop where
  stdout : report.stdout = []
  exitCode : report.exitCode = 1

section

variable (db : Database) (name : String) (rest : List String) (log : Array Trace.Event)

theorem dump_eq : ∃ log', dump db (name :: rest) log = {
    stdout := (db.delivery name log).1.map fun row => row.toJson.render
    stderr := warningLines (db.delivery name log).1 ++ (dumpEnd (db.delivery name log).2).1
    exitCode := (dumpEnd (db.delivery name log).2).2
    log := log' } := by
  have hprinted : db.dumpTable name printRow ⟨log, {}⟩ =
      mapState (Journal.via id rowLines) (db.dumpTable name Build.keepRows ⟨log, []⟩) :=
    (Database.seen_dumpTable (Trace.sifts_id db.trace) seen_printRow db name).answer rfl
  unfold dump Database.delivery
  dsimp only
  rw [hprinted]
  rcases db.dumpTable name Build.keepRows ⟨log, []⟩ with ⟨stats, j⟩ | ⟨e, j⟩
  · exact ⟨j.log, by simp [mapState, rowLines]⟩
  · exact ⟨j.log, by simp [mapState, rowLines]⟩

variable {db name log}

theorem inline_warningLines (hnames : InlineNames db name) :
    ∀ line ∈ warningLines (db.delivery name log).1, Inline line := by
  intro line hline
  obtain ⟨row, hrow, hline⟩ := List.mem_flatMap.mp hline
  obtain ⟨w, hw, rfl⟩ := List.mem_map.mp hline
  have hcolumn := hnames.mentions ((db.delivers name log).warnings hrow hw)
  exact inline_append.mpr ⟨inline_of_all rfl, Warning.inline_message hcolumn⟩

theorem inline_error {text : String} (h : Inline text) : Inline ("ERROR: " ++ text) :=
  inline_append.mpr ⟨inline_of_all rfl, h⟩

theorem inline_dumpEnd (hnames : InlineNames db name) :
    ∀ line ∈ (dumpEnd (db.delivery name log).2).1, Inline line := by
  have herror : ∀ e : Error, (∀ text ∈ e.texts, db.Mentions name text) → Inline e.message :=
    fun e he => Error.inline_message fun text htext => hnames.mentions (he text htext)
  cases hresult : (db.delivery name log).2 with
  | ok stats => simp [dumpEnd, inline_of_all, isBreak]
  | error e =>
    rcases (db.delivers name log).error hresult with rfl | ⟨d, rfl, hd⟩ | ⟨errors, rfl, herrors⟩
    · have hname : Inline (Error.tableNotFound name).message :=
        herror _ fun text htext => .inl (List.mem_singleton.mp htext)
      simpa [dumpEnd] using inline_error hname
    · have hmessage : Inline (Error.decode d).message := herror _ fun text htext => by
        rw [show (Error.decode d).texts = [] from hd] at htext
        cases htext
      simpa [dumpEnd] using inline_error hmessage
    · intro line hline
      rcases List.mem_cons.mp hline with rfl | hline
      · simp [inline_of_all, isBreak]
      · obtain ⟨r, hr, rfl⟩ := List.mem_map.mp hline
        exact inline_error <| RowError.inline_message fun text htext =>
          hnames.mentions (herrors r hr text htext)

end

/-- The dump of a database that is open. -/
theorem reports_dump (db : Database) (name : String) (rest : List String)
    (log : Array Trace.Event) :
    Reports db name (db.delivery name log).1 (db.delivery name log).2
      (dump db (name :: rest) log) := by
  obtain ⟨log', hdump⟩ := dump_eq db name rest log
  have hdelivers := db.delivers name log
  have hrows : ∀ line ∈ (db.delivery name log).1.map fun row => row.toJson.render, Inline line := by
    intro line hline
    obtain ⟨row, -, rfl⟩ := List.mem_map.mp hline
    exact row.inline_toJson
  have hmessages (hnames : InlineNames db name) : ∀ line ∈ warningLines (db.delivery name log).1 ++
      (dumpEnd (db.delivery name log).2).1, Inline line :=
    List.forall_mem_append.mpr ⟨inline_warningLines hnames, inline_dumpEnd hnames⟩
  rw [hdump]
  refine ⟨rfl, hrows, linesOf_printed hrows, ?_, ?_, ?_, hmessages,
    fun hnames => linesOf_printed (hmessages hnames)⟩
  · intro stats hresult
    rw [hresult, hdelivers.stats hresult, length_warningLines, List.length_map]
    exact ⟨rfl, rfl⟩
  · intro decoded errors hresult
    have hdecoded : decoded = (db.delivery name log).1.length := by
      rcases hdelivers.error hresult with h | ⟨d, h, -⟩ | ⟨errors', h, -⟩
      · cases h
      · cases h
      · exact (Error.rowErrors.inj h).1
    rw [hresult, hdecoded, List.length_map]
    exact ⟨rfl, rfl⟩
  · intro e hresult hother
    rw [hresult]
    cases e with
    | rowErrors decoded errors => exact absurd rfl (hother decoded errors)
    | io | decode | tableNotFound | cancelled => exact ⟨rfl, rfl⟩

theorem run_eq {trace : Option String} {switches : Trace.Switches}
    (h : switches? trace = some switches) (source : String → Except Error ByteArray)
    (path command : String) (rest : List String) :
    run source trace (path :: command :: rest) = runFile switches (source path) command rest := by
  cases trace with
  | none =>
    cases h
    rfl
  | some text =>
    have htext : Trace.Switches.ofJson? text = some switches := h
    simp only [run, htext]

theorem inlineNames_cut : InlineNames Build.cutDatabase "Notes" where
  table := inline_of_all rfl
  columns table htable := by
    have hnotes : Build.cutDatabase.catalog.table? "Notes" = some Build.notesSpec.table := by decide
    obtain rfl := Option.some.inj (hnotes.symm.trans htable)
    have hall : ∀ c ∈ Build.notesSpec.table.columns.toList,
        c.name.toList.all (fun c => !isBreak c) = true := by
      decide
    exact fun c hc => inline_of_all (hall c hc)

end Command

end Ese
