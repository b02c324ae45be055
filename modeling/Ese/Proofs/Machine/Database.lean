import Mathlib
import Ese.Proofs.Machine.Leaves
/-!
Databases with checked operations. Whatever the bytes of an image are, opening it, reading its pages
and dumping its tables comes to an answer or to an error about these bytes: no operation on the way
leaves its word or its buffer. The caller of a dump may end it with an error of its own.
-/

namespace Ese.Machine

open Ese.Tree

variable {σ α β : Type}

def loadCatalog (file : File) (trace : Trace.Switches) : Logged Machine.Catalog := fun log =>
  match survey (visitor file trace (catalogLeaf trace)) [PageId.catalog] { log, state := {} } with
  | .ok pages j =>
    let catalog := j.state.finish
    .ok catalog (j.log.push (.catalogLoaded catalog.tables.length pages))
  | .error e j => .error e j.log

def loadLongValues (file : File) (trace : Trace.Switches) (table : Table) : Logged LongValues :=
  fun log =>
    let roots := table.longValues.map (·.root)
    match survey (visitor file trace (longValueLeaf trace table)) roots { log, state := {} } with
    | .ok _ j => .ok j.state (j.log.push (.longValuesIndexed table.name j.state.size))
    | .error e j => .error e j.log

def dumpRows (file : File) (trace : Trace.Switches) (schema : Record.Schema)
    (onRow : Row → Callback σ Unit) : Run σ DumpStats := fun j =>
  let table := schema.table
  let v := visitor file trace (rowLeaf schema onRow)
  match survey v [table.root] { log := j.log, state := { state := j.state } } with
  | .error e j => .error e { log := j.log, state := j.state.state }
  | .ok pages j =>
    let dump := j.state
    let log := j.log.push
      (.tableDumped table.name dump.stats.rows dump.failures.length pages)
    match dump.result with
    | .ok stats => .ok stats { log, state := dump.state }
    | .error e => .error e { log, state := dump.state }

structure Database where
  file : File
  catalog : Machine.Catalog
  trace : Trace.Switches

def Database.open? (source : ByteArray) (trace : Trace.Switches) : Logged Machine.Database :=
  fun log =>
    match ofBytes source with
    | .error e => .error (.decode e) log
    | .ok file =>
      let log := if file.header.state = .dirtyShutdown then log.push .dirtyShutdown else log
      match loadCatalog file trace (log.push (.opened file.layout)) with
      | .ok catalog log => .ok { file, catalog, trace } log
      | .error e log => .error e log

def Database.dumpTable (db : Machine.Database) (name : String) (onRow : Row → Callback σ Unit) :
    Run σ DumpStats := do
  match ← db.catalog.table? name with
  | none => throw (.tableNotFound name)
  | some table =>
    let longValues ← Run.ofLogged (loadLongValues db.file db.trace table)
    dumpRows db.file db.trace ⟨table, db.file.layout, longValues⟩ onRow

section

variable {file : File} {schema : Record.Schema}

/-! Pages -/

/-- What follows the key of an entry, whether the key is rebuilt or taken as it is. -/
inductive HasPayload (page : Page) : Bytes → Prop where
  | keyed {values : List TaggedValue} {v : TaggedValue} {external : Bytes} {key : Key} :
    page.values = .ok values → v ∈ values → Key.parse v external = .ok key →
    HasPayload page (key.payload v)
  | entry {values : List TaggedValue} {v : TaggedValue} {entry : LeafEntry} :
    page.values = .ok values → v ∈ values → LeafEntry.parse v = .ok entry →
    HasPayload page entry.payload

theorem HasPayload.length_lt {page : Page} {payload : Bytes} (h : HasPayload page payload) :
    payload.length < 2 ^ 15 := by
  rcases h with ⟨hvalues, hv, -⟩ | ⟨hvalues, hv, hentry⟩
  · exact lt_of_le_of_lt (length_payload_le _ _) (length_values_lt hvalues _ hv)
  · refine lt_of_le_of_lt ?_ (length_values_lt hvalues _ hv)
    obtain ⟨header, -, hentry⟩ := Outcome.of_bind_ok hentry
    obtain ⟨localKey, -, hentry⟩ := Outcome.of_bind_ok hentry
    obtain ⟨payload, hpayload, hentry⟩ := Outcome.of_bind_ok hentry
    cases hentry
    unfold bytesFrom at hpayload
    split at hpayload
    · cases hpayload
      rw [List.length_drop]
      exact Nat.sub_le ..
    · cases hpayload

/-! Catalogs -/

structure SameCatalog (c : Machine.Catalog) (c' : Ese.Catalog) : Prop where
  plain : c.plain = c'
  table? : ∀ name, c.table? name = .ok (c'.table? name)

/-- Two runs load alike or fail alike, and the failure is no fault. -/
inductive Loads (R : α → β → Prop) : EStateM.Result Error (Array Trace.Event) α →
    EStateM.Result Error (Array Trace.Event) β → Prop where
  | ok {a : α} {b : β} {log : Array Trace.Event} : R a b → Loads R (.ok a log) (.ok b log)
  | error {e : Error} {log : Array Trace.Event} : e.Faultless →
    Loads R (.error e log) (.error e log)

theorem loads_catalog (hsupported : file.layout.Supported) (trace : Trace.Switches)
    (log : Array Trace.Event) :
    Loads SameCatalog (loadCatalog file trace log) (Catalog.load file trace log) := by
  have hstart : Noted SameTables 0 { log, state := {} } { log, state := {} } :=
    ⟨rfl, rfl, Builder.Sound.empty⟩
  have hagree := agree_survey (matched_catalogLeaf trace) hsupported trace [PageId.catalog] hstart
  unfold loadCatalog Catalog.load
  dsimp only
  generalize survey _ _ _ = checked at hagree ⊢
  generalize Visitor.survey _ _ _ = running at hagree ⊢
  rcases hagree with @⟨pages, j, j', hlog, hstate, hsound⟩ | @⟨e, j, j', he, hlog, -⟩
  · dsimp only
    rw [hlog, hstate]
    exact .ok ⟨rfl, Catalog.table?_eq hsound⟩
  · dsimp only
    rw [hlog]
    exact .error he

/-! Long values -/

theorem agree_longValues (hsupported : file.layout.Supported) (trace : Trace.Switches)
    (table : Table) (log : Array Trace.Event) :
    Agree Error.Faultless Eq (loadLongValues file trace table log)
        (LongValues.load file trace table log) ∧
      ∀ longValues log', LongValues.load file trace table log = .ok longValues log' →
        Buffered longValues := by
  have hstart : Noted SameValues 0 { log, state := {} } { log, state := {} } := by
    refine ⟨rfl, rfl, fun lid content hcontent => ?_⟩
    rw [LongValues.get?, Std.HashMap.getElem?_empty] at hcontent
    cases hcontent
  have hagree := agree_survey (matched_longValueLeaf trace table) hsupported trace
    (table.longValues.map (·.root)) hstart
  unfold loadLongValues LongValues.load
  dsimp only
  generalize survey _ _ _ = checked at hagree ⊢
  generalize Visitor.survey _ _ _ = running at hagree ⊢
  rcases hagree with @⟨pages, j, j', hlog, hsame, hbuffered⟩ | @⟨e, j, j', he, hlog, -⟩
  · dsimp only
    rw [hlog, hsame]
    refine ⟨.ok rfl, fun longValues log' hload => ?_⟩
    cases hload
    exact hbuffered
  · refine ⟨.error he hlog, fun longValues log' hload => ?_⟩
    cases hload

/-! Dumps -/

theorem agree_dumpRows (hsupported : file.layout.Supported) (trace : Trace.Switches)
    (hlongValues : Buffered schema.longValues) (onRow : Row → Callback σ Unit) (j : Journal σ) :
    Agree (Expected onRow) Eq (dumpRows file trace schema onRow j)
      (Database.dumpRows file trace schema onRow j) := by
  have hstart : Noted Counted 0 { log := j.log, state := { state := j.state } }
      { log := j.log, state := { state := j.state } } := by
    refine ⟨rfl, rfl, le_rfl, le_rfl, ?_⟩
    simp
  have hagree := agree_survey (matched_rowLeaf hlongValues onRow) hsupported trace
    [schema.table.root] hstart
  unfold dumpRows Database.dumpRows
  dsimp only
  generalize survey _ _ _ = checked at hagree ⊢
  generalize Visitor.survey _ _ _ = running at hagree ⊢
  rcases hagree with @⟨pages, s, t, hlog, hcounted⟩ | @⟨e, s, t, he, hlog, hcounted⟩
  · dsimp only
    rw [hlog, hcounted.same]
    by_cases hempty : t.state.failures.isEmpty
    · rw [Dump.result, if_pos hempty]
      exact .ok rfl
    · rw [Dump.result, if_neg hempty]
      exact .error (.inl hcounted.failures) rfl
  · dsimp only
    rw [hlog, hcounted.same]
    exact .error he rfl

structure SameDatabase (db : Machine.Database) (db' : Ese.Database) : Prop where
  file : db.file = db'.file
  catalog : SameCatalog db.catalog db'.catalog
  trace : db.trace = db'.trace
  dumps : ∀ {σ : Type} (name : String) (onRow : Row → Callback σ Unit) (j : Journal σ),
    Agree (Expected onRow) Eq (db.dumpTable name onRow j) (db'.dumpTable name onRow j)

theorem agree_dumpTable (hsupported : file.layout.Supported) (trace : Trace.Switches)
    {c : Machine.Catalog} {c' : Ese.Catalog} (hcatalog : SameCatalog c c') (name : String)
    (onRow : Row → Callback σ Unit) (j : Journal σ) :
    Agree (Expected onRow) Eq ((⟨file, c, trace⟩ : Machine.Database).dumpTable name onRow j)
      ((⟨file, c', trace⟩ : Ese.Database).dumpTable name onRow j) := by
  unfold Database.dumpTable Ese.Database.dumpTable Database.dump
  dsimp only
  rw [hcatalog.table? name]
  rcases c'.table? name with _ | table
  · exact .error (.inl trivial) rfl
  obtain ⟨hload, hbuffered⟩ := agree_longValues hsupported trace table j.log
  change Agree _ _ ((Run.ofLogged (loadLongValues file trace table) >>= _) j)
    ((Run.ofLogged (LongValues.load file trace table) >>= _) j)
  simp only [bind_apply, Run.ofLogged]
  generalize loadLongValues file trace table j.log = checked at hload ⊢
  generalize LongValues.load file trace table j.log = running at hload hbuffered ⊢
  rcases hload with @⟨longValues, log, _, rfl⟩ | @⟨e, log, _, he, rfl⟩
  · exact agree_dumpRows hsupported trace (hbuffered longValues log rfl) onRow _
  · exact .error (.inl he) rfl

/-! Files -/

/-- Whatever is read of a file is read as it is with checked operations, and no fault is met. -/
structure SafeFile (file : File) : Prop where
  pageCount : Machine.pageCount file = .ok file.pageCount
  page : ∀ id, Safe (readPage file id) (file.readPage id)
  pageHeader : ∀ id, Safe (readPageHeader file id) (file.readPageHeader id)
  values : ∀ id page, file.readPage id = .ok page → Safe (Machine.values page) page.values
  leaf : ∀ v, Safe (parseLeaf v) (LeafEntry.parse v)
  branch : ∀ v, Safe (parseBranch v) (BranchEntry.parse v)
  key : ∀ v external, Safe (parseKey v external) (Key.parse v external)
  longValues : ∀ trace table log, Agree Error.Faultless Eq (loadLongValues file trace table log)
    (LongValues.load file trace table log)
  records : ∀ trace table log longValues log',
    LongValues.load file trace table log = .ok longValues log' → ∀ id page payload,
    file.readPage id = .ok page → HasPayload page payload →
    Safe (decode ⟨table, file.layout, longValues⟩ payload)
      (Record.decode ⟨table, file.layout, longValues⟩ payload)

theorem safe_file (hsupported : file.layout.Supported) : SafeFile file where
  pageCount := pageCount_eq hsupported
  page := safe_readPage hsupported
  pageHeader := safe_readPageHeader hsupported
  values id page hpage := safe_values (layout_of_readPage hpage ▸ hsupported)
  leaf := safe_parseLeaf
  branch := safe_parseBranch
  key := safe_parseKey
  longValues trace table log := (agree_longValues hsupported trace table log).1
  records trace table log longValues log' hload id page payload hpage hpayload := by
    have hbuffered := (agree_longValues hsupported trace table log).2 longValues log' hload
    exact safe_decode hbuffered (hpayload.length_lt.trans (by decide))

/-! Images -/

/-- The image is opened and read with checked operations as it is without, and no fault is met. -/
structure Flawless (image : ByteArray) : Prop where
  numbers : ∀ (bytes : Bytes) (width offset : Nat) (part : Part),
    number bytes width offset part = readNat bytes width offset part
  file : Safe (ofBytes image) (File.ofBytes image)
  reads : ∀ file, File.ofBytes image = .ok file → SafeFile file
  opens : ∀ (trace : Trace.Switches) (log : Array Trace.Event),
    Loads SameDatabase (Database.open? image trace log) (Ese.Database.open? image trace log)

/-- No image makes the reader leave a word or a buffer. -/
theorem flawless (image : ByteArray) : Flawless image where
  numbers := number_eq
  file := safe_ofBytes image
  reads file hfile := safe_file (File.of_ofBytes hfile).2.1
  opens trace log := by
    obtain ⟨hsame, hfaultless⟩ := safe_ofBytes image
    unfold Database.open? Ese.Database.open?
    rw [hsame]
    rcases hfile : File.ofBytes image with e | file
    · exact .error (hfaultless e hfile)
    have hsupported := (File.of_ofBytes hfile).2.1
    have hload := loads_catalog hsupported trace
      ((if file.header.state = .dirtyShutdown then log.push .dirtyShutdown else log).push
        (.opened file.layout))
    dsimp only
    generalize loadCatalog file trace _ = checked at hload ⊢
    generalize Catalog.load file trace _ = running at hload ⊢
    rcases hload with ⟨hcatalog⟩ | ⟨he⟩
    · exact .ok ⟨rfl, hcatalog, rfl, agree_dumpTable hsupported trace hcatalog⟩
    · exact .error he

end

end Ese.Machine
