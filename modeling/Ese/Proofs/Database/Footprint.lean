import Mathlib
import Ese.Proofs.Database.EndToEnd
import Ese.Proofs.File.Bounds
import Ese.Proofs.File.Same
import Ese.Proofs.Tree.Footprint
/-!
What a database depends on. Opening an image reads the header and the pages of the catalog tree, a
dump reads the pages of the long-value trees and of the table. Another image with the same bytes
there opens and dumps alike, whatever the rest of it is and however the runs end.
-/

namespace Ese

open Ese.Tree

variable {σ : Type}

/-! The pages that are visited -/

def Database.openingLog (file : File) (log : Array Trace.Event) : Array Trace.Event :=
  (if file.header.state = .dirtyShutdown then log.push .dirtyShutdown else log).push
    (.opened file.layout)

def Catalog.footprint (file : File) (trace : Trace.Switches) (log : Array Trace.Event) :
    Std.HashSet PageId :=
  (Visitor.ofFile file trace (onLeaf trace)).footprint [PageId.catalog] { log, state := {} }

def LongValues.footprint (file : File) (trace : Trace.Switches) (table : Table)
    (log : Array Trace.Event) : Std.HashSet PageId :=
  (Visitor.ofFile file trace (onLeaf trace table)).footprint (table.longValues.map (·.root))
    { log, state := {} }

def Database.rowsFootprint (file : File) (trace : Trace.Switches) (schema : Record.Schema)
    (onRow : Row → Callback σ Unit) (j : Journal σ) : Std.HashSet PageId :=
  (Visitor.ofFile file trace (Dump.onLeaf schema onRow)).footprint [schema.table.root]
    { log := j.log, state := { state := j.state } }

inductive Database.OpenVisits (source : ByteArray) (trace : Trace.Switches)
    (log : Array Trace.Event) : PageId → Prop where
  | catalog {file : File} {id : PageId} : File.ofBytes source = .ok file →
    id ∈ Catalog.footprint file trace (openingLog file log) → OpenVisits source trace log id

inductive Database.DumpVisits (db : Database) (name : String) (onRow : Row → Callback σ Unit)
    (j : Journal σ) : PageId → Prop where
  | longValue {table : Table} {id : PageId} : db.catalog.table? name = some table →
    id ∈ LongValues.footprint db.file db.trace table j.log → DumpVisits db name onRow j id
  | row {table : Table} {longValues : LongValues} {log : Array Trace.Event} {id : PageId} :
    db.catalog.table? name = some table →
    LongValues.load db.file db.trace table j.log = .ok longValues log →
    id ∈ rowsFootprint db.file db.trace ⟨table, db.file.layout, longValues⟩ onRow { j with log } →
    DumpVisits db name onRow j id

/-! What reads the same comes to the same -/

section

variable {file file' : File} {trace : Trace.Switches} {log : Array Trace.Event}

theorem Catalog.load_of_same
    (h : ∀ id ∈ footprint file trace log, file'.readPage id = file.readPage id) :
    load file' trace log = load file trace log := by
  simp only [load, survey_of_same h]

theorem LongValues.load_of_same {table : Table}
    (h : ∀ id ∈ footprint file trace table log, file'.readPage id = file.readPage id) :
    load file' trace table log = load file trace table log := by
  simp only [load, survey_of_same h]

theorem Database.dumpRows_of_same {schema : Record.Schema} {onRow : Row → Callback σ Unit}
    {j : Journal σ}
    (h : ∀ id ∈ rowsFootprint file trace schema onRow j, file'.readPage id = file.readPage id) :
    dumpRows file' trace schema onRow j = dumpRows file trace schema onRow j := by
  simp only [dumpRows, survey_of_same h]

end

theorem Database.dumpTable_of_same {db db' : Database} (hlayout : db'.file.layout = db.file.layout)
    (hcatalog : db'.catalog = db.catalog) (htrace : db'.trace = db.trace) {name : String}
    {onRow : Row → Callback σ Unit} {j : Journal σ}
    (h : ∀ id, db.DumpVisits name onRow j id → db'.file.readPage id = db.file.readPage id) :
    db'.dumpTable name onRow j = db.dumpTable name onRow j := by
  unfold dumpTable dump
  rw [hcatalog, htrace, hlayout]
  rcases htable : db.catalog.table? name with _ | table
  · rfl
  have hload : LongValues.load db'.file db.trace table j.log =
      LongValues.load db.file db.trace table j.log :=
    LongValues.load_of_same fun id hid => h id (.longValue htable hid)
  simp only [bind_apply, Run.ofLogged, hload]
  rcases hlv : LongValues.load db.file db.trace table j.log with ⟨longValues, log⟩ | ⟨e, log⟩
  · exact dumpRows_of_same fun id hid => h id (.row htable hlv hid)
  · rfl

/-! Images -/

namespace Database

def SameBlock (file : File) (other : ByteArray) (id : PageId) : Prop :=
  SameBytes file.source other (file.pageOffset id) (file.pageOffset id + file.pageSize)

/-- Wherever a dump of the one database visits the same blocks, the other gives the same dump. -/
structure Alike (db db' : Database) : Prop where
  catalog : db'.catalog = db.catalog
  dumps : ∀ {σ : Type} (name : String) (onRow : Row → Callback σ Unit) (j : Journal σ),
    (∀ id, db.DumpVisits name onRow j id → SameBlock db.file db'.file.source id) →
    db'.dumpTable name onRow j = db.dumpTable name onRow j

inductive SameOutcome : EStateM.Result Error (Array Trace.Event) Database →
    EStateM.Result Error (Array Trace.Event) Database → Prop where
  | opened {db db' : Database} {log : Array Trace.Event} : Alike db db' →
    SameOutcome (.ok db log) (.ok db' log)
  | failed {e : Error} {log : Array Trace.Event} : SameOutcome (.error e log) (.error e log)

section

variable {source : ByteArray} {trace : Trace.Switches} {log : Array Trace.Event}

theorem open?_error {e : DecodeError} (h : File.ofBytes source = .error e) :
    open? source trace log = .error (.decode e) log := by
  unfold open?
  rw [h]

theorem open?_ok {file : File} (h : File.ofBytes source = .ok file) :
    open? source trace log = match Catalog.load file trace (openingLog file log) with
      | .ok catalog log => .ok { file, catalog, trace } log
      | .error e log => .error e log := by
  unfold open?
  rw [h]
  rfl

end

/-- Only the header and the blocks of visited pages matter, and the checksum of the header does not.
An image of the same length opens as the other does when it agrees with it on these and on the pages
of the catalog tree, and a table is dumped alike when they agree on the pages of this dump too. -/
theorem sameOutcome_of_sameBytes {a b : ByteArray} {trace : Trace.Switches}
    {log : Array Trace.Event} (hsize : b.size = a.size)
    (hheader : SameBytes a b 4 File.Header.size)
    (hopen : ∀ file id, File.ofBytes a = .ok file → OpenVisits a trace log id →
      SameBlock file b id) :
    SameOutcome (open? a trace log) (open? b trace log) := by
  obtain ⟨checksum, hofBytes⟩ := File.ofBytes_of_same hsize hheader
  rcases hfile : File.ofBytes a with e | file
  · rw [hfile] at hofBytes
    rw [open?_error hfile, open?_error hofBytes]
    exact .failed
  rw [hfile] at hofBytes
  -- the checksum is no part of the layout
  obtain ⟨file', hfile', hsource, hlayout, hlog⟩ : ∃ file', File.ofBytes b = .ok file' ∧
      file'.source = b ∧ file'.layout = file.layout ∧
      openingLog file' log = openingLog file log :=
    ⟨_, hofBytes, rfl, rfl, rfl⟩
  rw [open?_ok hfile, open?_ok hfile', hlog]
  have hreads : ∀ id, SameBlock file b id → file'.readPage id = file.readPage id :=
    fun id h => File.readPage_of_same hlayout (hsource ▸ h)
  rw [Catalog.load_of_same fun id hid => hreads id (hopen file id hfile (.catalog hfile hid))]
  rcases Catalog.load file trace (openingLog file log) with ⟨catalog, log'⟩ | ⟨e, log'⟩
  · refine .opened ⟨rfl, fun name onRow j h => ?_⟩
    have hblocks : ∀ id, DumpVisits ⟨file, catalog, trace⟩ name onRow j id →
        file'.readPage id = file.readPage id := by
      intro id hid
      apply hreads
      rw [← hsource]
      exact h id hid
    have hcatalog : (⟨file', catalog, trace⟩ : Database).catalog =
        (⟨file, catalog, trace⟩ : Database).catalog := rfl
    exact dumpTable_of_same hlayout hcatalog rfl hblocks
  · exact .failed

theorem OpenVisits.isValid {source : ByteArray} {trace : Trace.Switches} {log : Array Trace.Event}
    {id : PageId} (h : OpenVisits source trace log id) : id.isValid := by
  obtain ⟨_, hid⟩ := h
  exact isValid_of_mem_footprint hid

/-- The blocks of pages are behind the header and its shadow. -/
theorem sameBlock_of_isValid {file : File} {other : ByteArray} {id : PageId} (hid : id.isValid)
    (h : ∀ i, 2 * file.pageSize ≤ i → file.source.data[i]? = other.data[i]?) :
    SameBlock file other id := by
  intro i hfirst _
  have hpos := PageId.one_le_of_isValid hid
  refine h i (le_trans ?_ hfirst)
  exact Nat.mul_le_mul_right file.pageSize (by omega)

end Database

namespace Build

def scribble (image : ByteArray) (places : List Nat) : ByteArray :=
  ⟨places.foldl (fun bytes i => bytes.modify i (· + 1)) image.data⟩

theorem size_scribble (image : ByteArray) (places : List Nat) :
    (scribble image places).size = image.size := by
  obtain ⟨bytes⟩ := image
  unfold scribble ByteArray.size
  induction places generalizing bytes with
  | nil => rfl
  | cons i places ih =>
    rw [List.foldl_cons, ih]
    exact Array.size_modify

theorem getElem?_scribble {image : ByteArray} {places : List Nat} {i : Nat} (h : i ∉ places) :
    image.data[i]? = (scribble image places).data[i]? := by
  obtain ⟨bytes⟩ := image
  unfold scribble
  induction places generalizing bytes with
  | nil => rfl
  | cons k places ih =>
    have hk : k ≠ i := List.ne_of_not_mem_cons h |>.symm
    rw [List.foldl_cons, ← ih (List.not_mem_of_not_mem_cons h), Array.getElem?_modify, if_neg hk]

/-- The checksum of the header, and a byte of its shadow. -/
theorem sameOutcome_scribble :
    (scribble twoTablesImage [0, 20000]).size = twoTablesImage.size ∧
      SameBytes twoTablesImage (scribble twoTablesImage [0, 20000]) 4 Ese.File.Header.size ∧
      (∀ file id, Ese.File.ofBytes twoTablesImage = .ok file →
        Database.OpenVisits twoTablesImage {} #[] id →
        Database.SameBlock file (scribble twoTablesImage [0, 20000]) id) ∧
      ∃ db db' log, Database.open? twoTablesImage {} #[] = .ok db log ∧
        Database.open? (scribble twoTablesImage [0, 20000]) {} #[] = .ok db' log ∧
        db.tableNames = ["Notes", "Empty"] ∧ Database.Alike db db' := by
  obtain ⟨opened, hopened, hsource, hlayout, hreads⟩ := ofBytes_twoTables
  have hplaces : ∀ i, i ≠ 0 → i ≠ 20000 → i ∉ [0, 20000] := by
    intro i hfirst hsecond h
    rcases List.mem_pair.mp h with h | h
    · exact hfirst h
    · exact hsecond h
  have hheader : SameBytes twoTablesImage (scribble twoTablesImage [0, 20000]) 4
      Ese.File.Header.size := by
    intro i hfirst hlast
    have hlast : i < 240 := hlast
    exact getElem?_scribble (hplaces i (by omega) (by omega))
  have hopen : ∀ file id, Ese.File.ofBytes twoTablesImage = .ok file →
      Database.OpenVisits twoTablesImage {} #[] id →
      Database.SameBlock file (scribble twoTablesImage [0, 20000]) id := by
    intro file id hfile hid
    obtain rfl : opened = file := Except.ok.inj (hopened.symm.trans hfile)
    refine Database.sameBlock_of_isValid hid.isValid fun i hi => ?_
    have hpage : opened.pageSize = 16384 := congrArg Layout.pageSize hlayout
    rw [hpage] at hi
    rw [hsource]
    exact getElem?_scribble (hplaces i (by omega) (by omega))
  obtain ⟨log, hload⟩ := sound_twoTables.load hreads {} (Database.openingLog opened #[])
  have hdb : Database.open? twoTablesImage {} #[] = _ := Database.open?_ok hopened
  rw [hload] at hdb
  have hsame := Database.sameOutcome_of_sameBytes (size_scribble _ _) hheader hopen
  rw [hdb] at hsame
  generalize Database.open? (scribble twoTablesImage [0, 20000]) {} #[] = other at hsame ⊢
  obtain ⟨halike⟩ := hsame
  exact ⟨size_scribble _ _, hheader, hopen, _, _, _, hdb, rfl, rfl, halike⟩

end Build

end Ese
