import Mathlib
import Ese.Proofs.Database.Accounting
import Ese.Proofs.Database.EndToEnd
import Ese.Proofs.File.RoundTrip
import Ese.Proofs.Tree.Failing
/-!
What becomes of broken rows. A dump answers with a list of them only if the walk of the table comes
to its end. If the walk fails, its error is the whole answer, and nothing in it tells how many rows
were handed over or which were broken.
-/

namespace Ese.Tree

variable {σ α : Type}

/-! How walks fail -/

def FailsByFile (a : Walk σ α) : Prop := ∀ w e w', a w = .error e w' → ∃ d, e = .decode d

theorem FailsByFile.walk (file : File) (trace : Trace.Switches) {onLeaf : Leaf → Run σ Unit}
    (hleaf : ∀ l j, ∃ j', onLeaf l j = .ok () j') (root : PageId) :
    FailsByFile ((Visitor.ofFile file trace onLeaf).walk root) := by
  have hpages : PagesFail file fun e => ∃ d, e = .decode d := {
    page := fun _ d _ => ⟨d, rfl⟩
    values := fun _ d _ => ⟨d, rfl⟩
    branch := fun _ d _ => ⟨d, rfl⟩
    deep := fun _ => ⟨_, rfl⟩
    endless := fun _ => ⟨_, rfl⟩ }
  exact hpages.walk (fun l => .of_total fun j => ⟨(), hleaf l j⟩) root

theorem harvest_of_trail {file : File} {root : PageId} {steps : List Step}
    {answer : Except Error Unit} (h : trail file.readPage root {} = (steps, answer)) :
    harvest file root = (leaves steps, answer) := by
  rw [harvest_eq, h]

theorem error_harvest {file : File} {root : PageId} {e : Error}
    (h : (harvest file root).2 = .error e) : ∃ d, e = .decode d := by
  have hkeep : ∀ l j, ∃ j', Run.ofCallback (keepLeaf l) j = .ok () j' :=
    fun l j => ⟨{ j with state := j.state ++ [l] }, rfl⟩
  exact of_error_harvest (FailsByFile.walk file {} hkeep root) h

end Ese.Tree

namespace Ese.Dump

open Ese.Tree

variable {σ : Type}

/-- What a dump answers to a caller that takes every row, when a walk hands these leaf entries over
and ends so. -/
structure Reports (schema : Record.Schema) (walked : List Leaf × Except Error Unit) (s : σ)
    (answer : EStateM.Result Error σ DumpStats) : Prop where
  complete : walked.2 = .ok () → failed schema walked.1 ≠ [] →
    answer = .error (.rowErrors (delivered schema walked.1).length (failed schema walked.1)) s
  /-- The error of a walk that fails is about the file, and it is all that is answered. -/
  cut : ∀ e, walked.2 = .error e → (∃ d, e = .decode d) ∧ answer = .error e s
  /-- So broken rows are told of exactly if the walk comes to its end. -/
  told : failed schema walked.1 ≠ [] →
    ((∃ rows failures, answer = .error (.rowErrors rows failures) s) ↔ walked.2 = .ok ())

theorem Accounts.reports {schema : Record.Schema} {onRow : Row → Callback σ Unit}
    {walked : List Leaf × Except Error Unit} {start s : σ}
    {answer : EStateM.Result Error σ DumpStats} (h : Accounts schema onRow walked start answer)
    (hrows : (delivered schema walked.1).forM onRow start = .ok () s)
    (hwalk : ∀ e, walked.2 = .error e → ∃ d, e = .decode d) : Reports schema walked s answer := by
  have hcomplete : walked.2 = .ok () → failed schema walked.1 ≠ [] → answer =
      .error (.rowErrors (delivered schema walked.1).length (failed schema walked.1)) s :=
    fun hok hfailed => h.broken s hrows hok (mt (failed_eq_nil_iff schema walked.1).mpr hfailed)
  have hcut : ∀ e, walked.2 = .error e → (∃ d, e = .decode d) ∧ answer = .error e s :=
    fun e he => ⟨hwalk e he, h.cut s e hrows he⟩
  refine ⟨hcomplete, hcut, fun hfailed => ⟨?_, fun hok => ⟨_, _, hcomplete hok hfailed⟩⟩⟩
  rintro ⟨rows, failures, hanswer⟩
  cases hend : walked.2 with
  | ok u => rfl
  | error e =>
    obtain ⟨⟨d, rfl⟩, hdecode⟩ := hcut e hend
    cases hdecode.symm.trans hanswer

end Ese.Dump

namespace Ese.Database

open Ese.Tree

variable {σ : Type}

/-- A dump with its table and its long values found. -/
theorem dumpTable_eq {db : Database} {name : String} {table : Table}
    (htable : db.catalog.table? name = some table) {j : Journal σ} {longValues : LongValues}
    {log : Array Trace.Event}
    (hload : LongValues.load db.file db.trace table j.log = .ok longValues log)
    {onRow : Row → Callback σ Unit} : db.dumpTable name onRow j =
      dumpRows db.file db.trace ⟨table, db.file.layout, longValues⟩ onRow { j with log } := by
  unfold dumpTable dump
  rw [htable]
  simp only [bind_apply, Run.ofLogged, hload]

/-- A dump whose walk fails hands its rows over and then tells of the failure only; the broken rows
are told of if the walk comes to its end. -/
theorem reports_dumpTable (db : Database) {name : String} {table : Table}
    (htable : db.catalog.table? name = some table) {onRow : Row → Callback σ Unit}
    (htotal : ∀ row s, ∃ s', onRow row s = .ok () s') (j : Journal σ) {longValues : LongValues}
    {log : Array Trace.Event}
    (hload : LongValues.load db.file db.trace table j.log = .ok longValues log) :
    ∃ s, (Dump.delivered ⟨table, db.file.layout, longValues⟩ (harvest db.file table.root).1).forM
        onRow j.state = .ok () s ∧
      Dump.Reports ⟨table, db.file.layout, longValues⟩ (harvest db.file table.root) s
        (Run.onState (db.dumpTable name onRow j)) := by
  obtain ⟨s, hs⟩ := forM_of_total htotal
    (Dump.delivered ⟨table, db.file.layout, longValues⟩ (harvest db.file table.root).1) j.state
  have haccounts := Dump.accounts_dumpRows db.file db.trace ⟨table, db.file.layout, longValues⟩
    onRow { j with log }
  rw [dumpTable_eq htable hload]
  exact ⟨s, hs, haccounts.reports hs fun e he => error_harvest he⟩

end Ese.Database

namespace Ese.Tree

theorem Trail.chain_lost {read : Reader} {descend : PageId → Trail Unit} {depth steps : Nat}
    {id : PageId} {visited : Std.HashSet PageId} {e : DecodeError} (hvalid : id.isValid)
    (hnew : id ∉ visited) (hlost : read id = .error e) :
    Trail.chain read descend depth (steps + 1) id visited = ([.enter id], .error (.decode e)) :=
  Trail.chain_of_error hvalid hnew (Trail.page_of_error hlost)

/-- A leaf page whose next page cannot be read: its entries are handed over all the same. -/
theorem trail_lost {read : Reader} {id next : PageId} {e : DecodeError} (hleaf : IsLeaf read id)
    (hvalid : id.isValid) (hnext : nextPage read id = next) (hnextValid : next.isValid)
    (hne : next ≠ id) (hlost : read next = .error e) :
    ∃ steps, trail read id {} = (steps, .error (.decode e)) ∧
      leaves steps = leafEntries read id := by
  obtain ⟨page, external, entries, hcontents, hflag⟩ := hleaf
  obtain ⟨hread, hvalues⟩ := of_contents_ok hcontents
  let onPage : List Step := .visit id 0 page.header :: (leafEntries read id).map .leaf
  have hpage : Trail.page read (Trail.tree read maxDepth) 0 id
      (({} : Std.HashSet PageId).insert id) = (onPage, .ok (some next)) := by
    rw [nextPage_of_contents hcontents] at hnext
    have hend : ∀ visited, (pure (some page.header.next) : Trail (Option PageId)) visited =
        ([], .ok (some next)) := fun _ => by rw [← hnext]; rfl
    rw [Trail.page_of_ok hread hvalues, Trail.values,
      Trail.bind_of_ok (entries_leaf external entries hflag _), hend]
    simp [onPage, leafEntries_of_leaf hcontents hflag]
  have hnew : next ∉ marked (({} : Std.HashSet PageId).insert id) onPage := by
    simp [onPage, hne.symm]
  refine ⟨.enter id :: (onPage ++ [.enter next]), ?_, by simp [onPage]⟩
  change Trail.chain read (Trail.tree read maxDepth) 0 (maxChain - 1 + 1) id {} = _
  rw [Trail.chain_enter hvalid (by simp) hpage, show maxChain - 1 = maxChain - 2 + 1 from rfl,
    Trail.chain_lost hnextValid hnew hlost]

end Ese.Tree

namespace Ese.Build

open Ese.Tree

def cutRows : LeafPage Record where
  id := 5
  entries :=
    [([1], { fixed := [⟨[7, 0, 0, 0], false⟩], varying := [some [0x61]] }),
     ([2], { fixed := [⟨[8, 0, 0, 0], false⟩], varying := [none, some [1, 2]] })]

def cutListing : Chain Bytes where
  pages := [{
    id := 4
    entries := notesSpec.records.map fun r => ([1], r) }]

def cutPages : List (UInt32 × Page) :=
  cutListing.placed ++ [(5, (cutRows.map (Record.encode largeLayout)).page 9)]

def cutFile : Ese.File := (File.ofPages largeLayout cutPages).opened

theorem fits_cut : ∀ x ∈ cutPages, x.2.Fits largeLayout := by decide

theorem reads_cut : Reads cutFile.readPage largeLayout cutPages :=
  reads_ofPages (by decide) fits_cut (by decide)

theorem lost_cut : cutFile.readPage ⟨9⟩ = .error (.truncated .page 163840 16384 0) := by
  have hsupported : (File.ofPages largeLayout cutPages).layout.Supported := by
    rw [File.layout_ofPages]
    decide
  have hlast : (File.ofPages largeLayout cutPages).last < 9 := by
    rw [File.last_ofPages]
    decide
  have hread : (File.ofPages largeLayout cutPages).opened.readPage ⟨9⟩ = _ :=
    File.readPage_beyond hsupported (File.sized_ofPages fits_cut) hlast
  rw [File.layout_ofPages] at hread
  exact hread

theorem load_cut (log : Array Trace.Event) :
    ∃ log', Catalog.load cutFile {} log = .ok ⟨[notesSpec.table]⟩ log' := by
  have hplain : ∀ t ∈ [notesSpec.toListing], t.Plain := by
    intro t ht
    rw [List.mem_singleton.mp ht]
    exact plain_twoTables notesSpec List.mem_cons_self
  have hcontents : cutListing.contents = [notesSpec.toListing].flatMap (·.records) := rfl
  exact load_listings (c := cutListing) (by decide)
    (fun x hx => reads_cut x (List.mem_append_left _ hx)) (by decide) (by decide) rfl hcontents
    hplain (by decide) {} log

theorem harvest_cut : ∃ ls, harvest cutFile ⟨5⟩ =
      (ls, .error (.decode (.truncated .page 163840 16384 0))) ∧
    List.Forall₂ Holds ls (cutRows.map (Record.encode largeLayout)).located := by
  have hstored := reads_cut (5, (cutRows.map (Record.encode largeLayout)).page 9)
    (List.mem_append_right _ List.mem_cons_self)
  obtain ⟨hleaf, hnext, hholds⟩ :=
    isLeaf_page (p := cutRows.map (Record.encode largeLayout)) hstored.1 (by decide) (by decide)
      hstored.2
  obtain ⟨steps, htrail, hleaves⟩ :=
    trail_lost hleaf (by decide) hnext (by decide) (by decide) lost_cut
  exact ⟨_, harvest_of_trail htrail, hleaves ▸ hholds⟩

def cutImage : ByteArray := (File.ofPages largeLayout cutPages).build

def cutSchema : Ese.Record.Schema := ⟨notesSpec.table, largeLayout, {}⟩

def cutRow : Row := { columns := [("Id", .int 7), ("Name", .string "a")] }

def cutError : RowError := ⟨⟨5⟩, 2, .truncated .columnValue 0 4 2⟩

theorem fits_cutRows : ∀ x ∈ cutRows.located, x.content.Fits notesSpec.table largeLayout := by
  decide

theorem delivered_cut : Dump.delivered cutSchema (harvest cutFile ⟨5⟩).1 = [cutRow] := by
  obtain ⟨ls, hharvest, hholds⟩ := harvest_cut
  rw [hharvest]
  exact (delivered_records fits_cutRows hholds).trans rfl

theorem failed_cut : Dump.failed cutSchema (harvest cutFile ⟨5⟩).1 = [cutError] := by
  obtain ⟨ls, hharvest, hholds⟩ := harvest_cut
  rw [hharvest]
  exact (failed_records fits_cutRows hholds).trans rfl

def cutDatabase : Database := ⟨cutFile, ⟨[notesSpec.table]⟩, {}⟩

theorem opens_cut : ∃ log, Database.open? cutImage {} #[] = .ok cutDatabase log :=
  open_ofPages (by decide) fits_cut load_cut #[]

theorem layout_cut : cutFile.layout = largeLayout := layout_ofPages_opened (by decide) cutPages

theorem reports_cut :
    cutDatabase.catalog.table? "Notes" = some notesSpec.table ∧
      (∃ log, LongValues.load cutFile {} notesSpec.table #[] = .ok {} log) ∧
      Dump.failed cutSchema (harvest cutFile ⟨5⟩).1 ≠ [] ∧
      ∃ s, (Dump.delivered cutSchema (harvest cutFile ⟨5⟩).1).forM keepRows [] = .ok () s ∧
        Dump.Reports cutSchema (harvest cutFile ⟨5⟩) s
          (Run.onState (cutDatabase.dumpTable "Notes" keepRows ⟨#[], []⟩)) := by
  obtain ⟨log, hload⟩ := DatabaseSpec.Sound.load_longValues cutFile {} notesSpec.table rfl #[]
  have htable : cutDatabase.catalog.table? "Notes" = some notesSpec.table := by decide
  have htotal : ∀ row s, ∃ s', keepRows row s = .ok () s' := fun row s => ⟨s ++ [row], rfl⟩
  have hreports := Database.reports_dumpTable cutDatabase htable htotal ⟨#[], []⟩ hload
  rw [show cutDatabase.file.layout = largeLayout from layout_cut] at hreports
  exact ⟨htable, ⟨log, hload⟩, by simp [failed_cut], hreports⟩

/-- One row is broken, but the answer tells of the page behind it only. -/
theorem untold_cut :
    (∃ log, Database.open? cutImage {} #[] = .ok cutDatabase log) ∧
      Dump.delivered cutSchema (harvest cutFile ⟨5⟩).1 = [cutRow] ∧
      Dump.failed cutSchema (harvest cutFile ⟨5⟩).1 = [cutError] ∧
      Run.onState (cutDatabase.dumpTable "Notes" keepRows ⟨#[], []⟩) =
        .error (.decode (.truncated .page 163840 16384 0)) [cutRow] ∧
      Run.onState (cutDatabase.dumpTable "Notes" keepRows ⟨#[], []⟩) ≠
        .error (.rowErrors 1 [cutError]) [cutRow] := by
  obtain ⟨log, hload⟩ := DatabaseSpec.Sound.load_longValues cutFile {} notesSpec.table rfl #[]
  have htable : cutDatabase.catalog.table? "Notes" = some notesSpec.table := by decide
  obtain ⟨ls, hharvest, -⟩ := harvest_cut
  have hrows : (Dump.delivered cutSchema (harvest cutFile ⟨5⟩).1).forM keepRows [] =
      .ok () [cutRow] := by
    rw [delivered_cut]
    rfl
  have hwalk := congrArg Prod.snd hharvest
  have haccounts := Dump.accounts_dumpRows cutFile {} cutSchema keepRows ⟨log, []⟩
  have hanswer : Run.onState (cutDatabase.dumpTable "Notes" keepRows ⟨#[], []⟩) =
      .error (.decode (.truncated .page 163840 16384 0)) [cutRow] := by
    rw [Database.dumpTable_eq (j := ⟨#[], []⟩) htable hload,
      show cutDatabase.file.layout = largeLayout from layout_cut]
    exact haccounts.cut _ _ hrows hwalk
  refine ⟨opens_cut, delivered_cut, failed_cut, hanswer, ?_⟩
  rw [hanswer]
  exact nofun

end Ese.Build
