import Mathlib
import Ese.Proofs.Catalog.Listing
import Ese.Proofs.Catalog.Load
import Ese.Proofs.Database.Dump
import Ese.Proofs.File.Image
import Ese.Proofs.Keyed
import Ese.Proofs.Record.RoundTrip
import Ese.Proofs.Tree.Chain
/-!
From tables to a file and back. Tables that were written to a file, the catalog on one chain of
pages and the rows of each table on another, are the tables of the database that is opened, and a
dump hands over the rows that were written.
-/

namespace Ese.Build

open Ese.Tree

structure TableSpec extends Listing where
  rows : Chain Record

namespace TableSpec

/-- The row that a record of the table stands for. Nothing is stored outside of the records. -/
def row (t : TableSpec) (r : Record) : Except DecodeError Row := r.reference t.table {}

def good (t : TableSpec) : List Row := t.rows.located.filterMap fun x => (t.row x.content).toOption

def broken (t : TableSpec) : List RowError :=
  t.rows.located.filterMap fun x =>
    match t.row x.content with
    | .ok _ => none
    | .error reason => some ⟨x.page, x.tag, reason⟩

def dumped {σ : Type} (t : TableSpec) (onRow : Row → Callback σ Unit) : Callback σ DumpStats :=
  t.good.forM onRow >>= fun _ => conclude (Dump.tally t.good t.broken)

end TableSpec

structure DatabaseSpec where
  tables : List TableSpec
  catalog : Chain Bytes

namespace DatabaseSpec

def chains (d : DatabaseSpec) (layout : Layout) : List (Chain Bytes) :=
  d.catalog :: d.tables.map fun t => t.rows.map (Record.encode layout)

def pages (d : DatabaseSpec) (layout : Layout) : List (UInt32 × Page) :=
  (d.chains layout).flatMap Chain.placed

/-- The database has a form on this layout. -/
structure Sound (d : DatabaseSpec) (layout : Layout) : Prop where
  supported : layout.Supported
  names : (d.tables.map (·.name)).Nodup
  plain : ∀ t ∈ d.tables, t.Plain
  catalog_first : d.catalog.first? = some 4
  catalog_contents : d.catalog.contents = d.tables.flatMap (·.records)
  roots : ∀ t ∈ d.tables, t.rows.first? = some t.root
  chains : ∀ c ∈ d.chains layout, c.Sound
  ids : ((d.pages layout).map (·.1)).Nodup
  valid : ∀ x ∈ d.pages layout, PageId.isValid ⟨x.1⟩
  fits : ∀ x ∈ d.pages layout, x.2.Fits layout
  rows : ∀ t ∈ d.tables, ∀ r ∈ t.rows.contents, r.Fits t.table layout

/-- The database that was opened is the one that was written. -/
structure Opens (d : DatabaseSpec) (db : Database) : Prop where
  names : db.tableNames = d.tables.map (·.name)
  tables : ∀ t ∈ d.tables, db.catalog.table? t.name = some t.table
  columns : ∀ t ∈ d.tables, ∀ id,
    t.table.columns.byId? id = (t.lastColumn? id).map (·.column)
  dumps : ∀ t ∈ d.tables, ∀ (σ : Type) (onRow : Row → Callback σ Unit) (j : Journal σ),
    Run.onState (db.dumpTable t.name onRow j) = t.dumped onRow j.state

end DatabaseSpec

/-! What the leaf entries of a chain come to -/

theorem mapM_entryOf {ls : List Leaf} {xs : List (Located Bytes)} (h : List.Forall₂ Holds ls xs) :
    ls.mapM Catalog.entryOf = (xs.map (·.content)).mapM Catalog.Entry.decode := by
  induction h with
  | nil => rfl
  | @cons l x ls xs hl _ ih =>
    obtain ⟨key, hsplit⟩ := hl.payload
    have hentry : Catalog.entryOf l = Catalog.Entry.decode x.content := by
      rw [Catalog.entryOf, hsplit]
      rfl
    rw [List.map_cons, List.mapM_cons, List.mapM_cons, hentry, ih]

theorem onRecordPages_holds {ls : List Leaf} {xs : List (Located Bytes)}
    (h : List.Forall₂ Holds ls xs) : ∀ l ∈ ls, l.page.header.holdsRecords := by
  induction h with
  | nil => simp
  | cons hl _ ih =>
    intro m hm
    rcases List.mem_cons.mp hm with rfl | hm
    · exact hl.records
    · exact ih m hm

theorem entryRow_holds (schema : Ese.Record.Schema) {l : Leaf} {x : Located Bytes} (h : Holds l x) :
    Dump.entryRow schema l = Ese.Record.decode schema x.content := by
  obtain ⟨key, hsplit⟩ := h.payload
  rw [Dump.entryRow, hsplit]
  rfl

theorem delivered_holds (schema : Ese.Record.Schema) {ls : List Leaf} {xs : List (Located Bytes)}
    (h : List.Forall₂ Holds ls xs) : Dump.delivered schema ls =
      xs.filterMap fun x => (Ese.Record.decode schema x.content).toOption := by
  induction h with
  | nil => rfl
  | @cons l x ls xs hl _ ih =>
    have hrow := entryRow_holds schema hl
    cases hdecode : Ese.Record.decode schema x.content with
    | error e =>
      rw [Dump.delivered_broken hl.records (hrow.trans hdecode), ih,
        List.filterMap_cons_none (by rw [hdecode]; rfl)]
    | ok row =>
      rw [Dump.delivered_row hl.records (hrow.trans hdecode), ih,
        List.filterMap_cons_some (by rw [hdecode]; rfl)]

theorem failed_holds (schema : Ese.Record.Schema) {ls : List Leaf} {xs : List (Located Bytes)}
    (h : List.Forall₂ Holds ls xs) : Dump.failed schema ls =
      xs.filterMap fun x =>
        match Ese.Record.decode schema x.content with
        | .ok _ => none
        | .error reason => some ⟨x.page, x.tag, reason⟩ := by
  induction h with
  | nil => rfl
  | @cons l x ls xs hl _ ih =>
    have hrow := entryRow_holds schema hl
    cases hdecode : Ese.Record.decode schema x.content with
    | error e =>
      rw [Dump.failed_broken hl.records (hrow.trans hdecode), ih, hl.page, hl.tag,
        List.filterMap_cons_some (by rw [hdecode])]
    | ok row =>
      rw [Dump.failed_row hl.records (hrow.trans hdecode), ih,
        List.filterMap_cons_none (by rw [hdecode])]

section

variable {t : TableSpec} {layout : Layout} {ls : List Leaf} {xs : List (Located Record)}
  (hfits : ∀ x ∈ xs, x.content.Fits t.table layout)
  (h : List.Forall₂ Holds ls (xs.map fun x => ⟨x.page, x.tag, x.content.encode layout⟩))

include hfits h

theorem delivered_records : Dump.delivered ⟨t.table, layout, {}⟩ ls =
    xs.filterMap fun x => (t.row x.content).toOption := by
  rw [delivered_holds _ h, List.filterMap_map]
  exact List.filterMap_congr fun x hx =>
    congrArg Except.toOption (Record.fills_record {} (hfits x hx)).decode_eq

theorem failed_records : Dump.failed ⟨t.table, layout, {}⟩ ls = xs.filterMap fun x =>
    match t.row x.content with
    | .ok _ => none
    | .error reason => some ⟨x.page, x.tag, reason⟩ := by
  rw [failed_holds _ h, List.filterMap_map]
  refine List.filterMap_congr fun x hx => ?_
  have hrow : Ese.Record.decode ⟨t.table, layout, {}⟩ (x.content.encode layout) =
      t.row x.content := (Record.fills_record {} (hfits x hx)).decode_eq
  simp only [Function.comp, hrow]

end

/-! What is opened -/

/-- Tables that are listed on pages from page 4 on are the tables of the catalog. -/
theorem load_listings {file : Ese.File} {layout : Layout} {c : Chain Bytes}
    {listings : List Listing} (hc : c.Sound) (hreads : Reads file.readPage layout c.placed)
    (hnodup : (c.placed.map (·.1)).Nodup) (hvalid : ∀ x ∈ c.placed, PageId.isValid ⟨x.1⟩)
    (hfirst : c.first? = some 4) (hcontents : c.contents = listings.flatMap (·.records))
    (hplain : ∀ t ∈ listings, t.Plain) (hnames : (listings.map (·.name)).Nodup)
    (trace : Trace.Switches) (log : Array Trace.Event) :
    ∃ log', Catalog.load file trace log = .ok ⟨listings.map (·.table)⟩ log' := by
  obtain ⟨steps, htrail, hholds⟩ := Chain.trail_chain hc hreads hnodup hvalid hfirst
  have hlength := Chain.length_content_le fun x hx => (hreads x hx).1
  have hentries : (leaves steps).mapM Catalog.entryOf = .ok (listings.flatMap (·.entries)) := by
    rw [mapM_entryOf hholds, Chain.map_content_located, hcontents]
    refine Outcome.mapM_flatMap fun t ht => Listing.mapM_decode (hplain t ht) fun r hr => ?_
    apply hlength
    rw [hcontents]
    exact List.mem_flatMap.mpr ⟨t, ht, hr⟩
  obtain ⟨current, hfold⟩ := Catalog.foldlM_listings (b := {}) listings (by simp) hnames
  have htake := Catalog.forM_take (onRecordPages_holds hholds) hentries hfold
  have hsweep : sweep file.readPage PageId.catalog Catalog.take {} =
      .ok () ⟨listings.map (·.table), current⟩ := by
    unfold sweep
    rw [show PageId.catalog = ⟨4⟩ from rfl, htrail, bind_apply, htake]
    simp [conclude]
  obtain ⟨log', hload⟩ := Catalog.load_eq file trace log
  exact ⟨log', by rw [hload, hsweep]; rfl⟩

/-- A file of pages opens with the tables that its catalog lists. -/
theorem open_ofPages {layout : Layout} {placed : List (UInt32 × Page)} (h : layout.Supported)
    (hfits : ∀ x ∈ placed, x.2.Fits layout) {trace : Trace.Switches} {tables : List Table}
    (hload : ∀ log, ∃ log',
      Catalog.load (File.ofPages layout placed).opened trace log = .ok ⟨tables⟩ log')
    (log : Array Trace.Event) :
    ∃ log', Database.open? (File.ofPages layout placed).build trace log =
      .ok ⟨(File.ofPages layout placed).opened, ⟨tables⟩, trace⟩ log' := by
  have hsupported : (File.ofPages layout placed).layout.Supported := by
    rw [File.layout_ofPages]
    exact h
  have hopen := File.ofBytes_build hsupported (File.sized_ofPages hfits)
  have hstate : (File.ofPages layout placed).opened.header.state ≠ .dirtyShutdown := nofun
  generalize (File.ofPages layout placed).opened = file at hload hopen hstate
  obtain ⟨log', hlog⟩ := hload (log.push (.opened file.layout))
  refine ⟨log', ?_⟩
  unfold Database.open?
  rw [hopen]
  simp only [if_neg hstate, hlog]

theorem layout_ofPages_opened {layout : Layout} (h : layout.Supported)
    (placed : List (UInt32 × Page)) : (File.ofPages layout placed).opened.layout = layout := by
  have hsupported : (File.ofPages layout placed).layout.Supported := by
    rw [File.layout_ofPages]
    exact h
  rw [File.layout_opened hsupported, File.layout_ofPages]

namespace DatabaseSpec.Sound

variable {d : DatabaseSpec} {layout : Layout} {placed : List (UInt32 × Page)}

theorem reads (h : d.Sound layout) (hplaced : placed.Perm (d.pages layout)) :
    Reads (File.ofPages layout placed).opened.readPage layout (d.pages layout) := by
  have hfits : ∀ x ∈ placed, x.2.Fits layout := fun x hx => h.fits x (hplaced.subset hx)
  have hids : (placed.map (·.1)).Nodup := (hplaced.map (·.1)).nodup_iff.mpr h.ids
  exact fun x hx => reads_ofPages h.supported hfits hids x (hplaced.symm.subset hx)

theorem pages_of_chain {c : Chain Bytes} (hc : c ∈ d.chains layout) :
    c.placed.Sublist (d.pages layout) := by
  rw [DatabaseSpec.pages, List.flatMap_def]
  exact List.sublist_flatten_of_mem (List.mem_map_of_mem hc)

theorem trail_chain (h : d.Sound layout) {read : Reader}
    (hreads : Reads read layout (d.pages layout))
    {c : Chain Bytes} (hc : c ∈ d.chains layout) {root : UInt32} (hroot : c.first? = some root) :
    ∃ steps, trail read ⟨root⟩ {} = (steps, .ok ()) ∧
      List.Forall₂ Holds (leaves steps) c.located := by
  have hsub := pages_of_chain hc
  refine Chain.trail_chain (h.chains c hc) (fun x hx => hreads x (hsub.subset hx)) ?_
    (fun x hx => h.valid x (hsub.subset hx)) hroot
  exact (hsub.map (·.1)).nodup h.ids

/-- The catalog that is loaded lists the tables that were written. -/
theorem load (h : d.Sound layout) {file : Ese.File}
    (hreads : Reads file.readPage layout (d.pages layout)) (trace : Trace.Switches)
    (log : Array Trace.Event) :
    ∃ log', Catalog.load file trace log = .ok ⟨d.tables.map (·.table)⟩ log' := by
  have hc : d.catalog ∈ d.chains layout := List.mem_cons_self
  have hsub := pages_of_chain hc
  have hnodup := (hsub.map (·.1)).nodup h.ids
  have hcontents : d.catalog.contents = (d.tables.map (·.toListing)).flatMap (·.records) := by
    rw [h.catalog_contents, List.flatMap_map]
  have hplain : ∀ t ∈ d.tables.map (·.toListing), t.Plain := by
    intro t ht
    obtain ⟨spec, hspec, rfl⟩ := List.mem_map.mp ht
    exact h.plain spec hspec
  have hnames : ((d.tables.map (·.toListing)).map (·.name)).Nodup := by
    rw [List.map_map]
    exact h.names
  obtain ⟨log', hload⟩ := load_listings (h.chains _ hc) (fun x hx => hreads x (hsub.subset hx))
    hnodup (fun x hx => h.valid x (hsub.subset hx)) h.catalog_first hcontents hplain hnames trace
    log
  rw [List.map_map] at hload
  exact ⟨log', hload⟩

/-- Without long-value trees there is nothing to load. -/
theorem load_longValues (file : Ese.File) (trace : Trace.Switches) (table : Table)
    (hnone : table.longValues = []) (log : Array Trace.Event) :
    ∃ log', LongValues.load file trace table log = .ok {} log' := by
  unfold LongValues.load
  rw [hnone]
  exact ⟨_, rfl⟩

/-- A dump of rows that were written. -/
theorem dumpRows (h : d.Sound layout) {file : Ese.File} (hlayout : file.layout = layout)
    (hreads : Reads file.readPage layout (d.pages layout)) (trace : Trace.Switches) {t : TableSpec}
    (ht : t ∈ d.tables) {σ : Type} (onRow : Row → Callback σ Unit) (j : Journal σ) :
    Run.onState (Database.dumpRows file trace ⟨t.table, file.layout, {}⟩ onRow j) =
      t.dumped onRow j.state := by
  have hc : t.rows.map (Record.encode layout) ∈ d.chains layout :=
    List.mem_cons_of_mem _ (List.mem_map_of_mem ht)
  have hfirst : (t.rows.map (Record.encode layout)).first? = some t.root := by
    rw [← h.roots t ht]
    simp [Chain.first?, Chain.map, LeafPage.map, Function.comp_def]
  obtain ⟨steps, htrail, hholds⟩ := h.trail_chain hreads hc hfirst
  rw [Chain.located_map] at hholds
  have hfits : ∀ x ∈ t.rows.located, x.content.Fits t.table layout := by
    intro x hx
    apply h.rows t ht
    rw [← Chain.map_content_located]
    exact List.mem_map_of_mem hx
  have hgood : Dump.delivered ⟨t.table, layout, {}⟩ (leaves steps) = t.good :=
    delivered_records hfits hholds
  have hbroken : Dump.failed ⟨t.table, layout, {}⟩ (leaves steps) = t.broken :=
    failed_records hfits hholds
  have hroot : (Ese.Record.Schema.mk t.table layout {}).table.root = ⟨t.root⟩ := rfl
  rw [Dump.onState_dumpRows, hlayout]
  unfold Dump.outcome TableSpec.dumped
  rw [hroot, htrail, hgood, hbroken]
  rfl

theorem table?_eq (h : d.Sound layout) {t : TableSpec} (ht : t ∈ d.tables) :
    Catalog.table? ⟨d.tables.map (·.table)⟩ t.name = some t.table := by
  have hnames : ((d.tables.map (·.table)).map (·.name)).Nodup := by
    rw [List.map_map]
    exact h.names
  exact Keyed.find?_eq hnames (List.mem_map_of_mem ht)

theorem dumpTable (h : d.Sound layout) (db : Database) (hlayout : db.file.layout = layout)
    (hreads : Reads db.file.readPage layout (d.pages layout))
    (hcatalog : db.catalog = ⟨d.tables.map (·.table)⟩) {t : TableSpec} (ht : t ∈ d.tables)
    {σ : Type} (onRow : Row → Callback σ Unit) (j : Journal σ) :
    Run.onState (db.dumpTable t.name onRow j) = t.dumped onRow j.state := by
  obtain ⟨log, hload⟩ := load_longValues db.file db.trace t.table rfl j.log
  unfold Database.dumpTable Database.dump
  rw [hcatalog, h.table?_eq ht]
  simp only [bind_apply, Run.ofLogged, hload]
  exact h.dumpRows hlayout hreads db.trace ht onRow { j with log }

theorem opens (h : d.Sound layout) (db : Database) (hlayout : db.file.layout = layout)
    (hreads : Reads db.file.readPage layout (d.pages layout))
    (hcatalog : db.catalog = ⟨d.tables.map (·.table)⟩) : d.Opens db where
  names := by
    rw [Database.tableNames, hcatalog, Catalog.tableNames, List.map_map]
    rfl
  tables t ht := by
    rw [hcatalog]
    exact h.table?_eq ht
  columns t _ id := t.byId?_table id
  dumps t ht _ onRow j := h.dumpTable db hlayout hreads hcatalog ht onRow j

/-- A file that tables were written to opens as the database of these tables. -/
theorem opens_build {d : DatabaseSpec} {layout : Layout} {placed : List (UInt32 × Page)}
    (h : d.Sound layout) (hplaced : placed.Perm (d.pages layout)) (trace : Trace.Switches)
    (log : Array Trace.Event) :
    ∃ db log', Database.open? (File.ofPages layout placed).build trace log = .ok db log' ∧
      d.Opens db := by
  have hreads := h.reads hplaced
  have hfits : ∀ x ∈ placed, x.2.Fits layout := fun x hx => h.fits x (hplaced.subset hx)
  obtain ⟨log', hopen⟩ := open_ofPages h.supported hfits (h.load hreads trace) log
  exact ⟨_, log', hopen, h.opens _ (layout_ofPages_opened h.supported placed) hreads rfl⟩

end DatabaseSpec.Sound

def largeLayout : Layout := ⟨0x620, 0x11, 16384⟩

/-- A column that is listed twice, and a row on the second page with a number that is too short. -/
def notesSpec : TableSpec where
  name := "Notes"
  objectId := 10
  root := 5
  columns := [⟨"Id", 1, 4, 4, 0⟩, ⟨"Old", 128, 4, 4, 0⟩, ⟨"Name", 128, 10, 255, 1252⟩,
    ⟨"Size", 129, 4, 4, 0⟩]
  rows := { pages := [
    { id := 5
      entries := [([1], { fixed := [⟨[7, 0, 0, 0], false⟩], varying := [some [0x61]] })] },
    { id := 6
      external := [1]
      entries :=
        [([2], { fixed := [⟨[8, 0, 0, 0], false⟩], varying := [none, some [1, 2]] })] }] }

def emptySpec : TableSpec where
  name := "Empty"
  objectId := 11
  root := 7
  columns := []
  rows := { pages := [{ id := 7, entries := [] }], last := 0xFFFFFFFF }

def twoTables : DatabaseSpec where
  tables := [notesSpec, emptySpec]
  catalog := { pages := [
    { id := 4
      flags := Ese.Page.Flag.root
      entries := (notesSpec.records ++ emptySpec.records).map fun r => ([1], r) }] }

theorem plain_twoTables : ∀ t ∈ twoTables.tables, t.Plain := by
  intro t ht
  simp only [twoTables, List.mem_cons, List.not_mem_nil, or_false] at ht
  rcases ht with rfl | rfl
  · refine ⟨⟨by simp [notesSpec], by simp [notesSpec]⟩, fun c hc => ?_⟩
    simp only [notesSpec, List.mem_cons, List.not_mem_nil, or_false] at hc
    rcases hc with rfl | rfl | rfl | rfl <;> exact ⟨by simp, by simp⟩
  · exact ⟨⟨by simp [emptySpec], by simp [emptySpec]⟩, fun c hc => absurd hc List.not_mem_nil⟩

theorem sound_twoTables : twoTables.Sound largeLayout where
  supported := by decide
  names := by decide
  plain := plain_twoTables
  catalog_first := rfl
  catalog_contents := rfl
  roots := by decide
  chains := by decide
  ids := by decide
  valid := by decide
  fits := by decide
  rows := by decide

def keepRows (row : Row) : Callback (List Row) Unit := modify (· ++ [row])

theorem opens_twoTables :
    twoTables.Sound largeLayout ∧
      ∃ db log,
        Database.open? (File.ofPages largeLayout (twoTables.pages largeLayout).reverse).build
          {} #[] = .ok db log ∧
        db.tableNames = ["Notes", "Empty"] ∧
        Run.onState (db.dumpTable "Notes" keepRows ⟨#[], []⟩) =
          .error (.rowErrors 1 [⟨⟨6⟩, 1, .truncated .columnValue 0 4 2⟩])
            [{ columns := [("Id", .int 7), ("Name", .string "a")] }] := by
  refine ⟨sound_twoTables, ?_⟩
  obtain ⟨db, log, hopen, hopens⟩ :=
    DatabaseSpec.Sound.opens_build sound_twoTables (List.reverse_perm _) {} #[]
  refine ⟨db, log, hopen, hopens.names, ?_⟩
  have hdump := hopens.dumps notesSpec List.mem_cons_self _ keepRows ⟨#[], []⟩
  exact hdump.trans rfl

def twoTablesImage : ByteArray :=
  (File.ofPages largeLayout (twoTables.pages largeLayout).reverse).build

theorem ofBytes_twoTables : ∃ file, Ese.File.ofBytes twoTablesImage = .ok file ∧
    file.source = twoTablesImage ∧ file.layout = largeLayout ∧
    Reads file.readPage largeLayout (twoTables.pages largeLayout) := by
  have hfits : ∀ x ∈ (twoTables.pages largeLayout).reverse, x.2.Fits largeLayout :=
    fun x hx => sound_twoTables.fits x (List.mem_reverse.mp hx)
  have hsupported :
      (File.ofPages largeLayout (twoTables.pages largeLayout).reverse).layout.Supported := by
    rw [File.layout_ofPages]
    exact sound_twoTables.supported
  exact ⟨_, File.ofBytes_build hsupported (File.sized_ofPages hfits), rfl,
    layout_ofPages_opened sound_twoTables.supported _, sound_twoTables.reads (List.reverse_perm _)⟩

end Ese.Build
