import Mathlib
import Ese.Catalog.Builder
import Ese.Proofs.Catalog.RoundTrip
import Ese.Proofs.Outcome
import Ese.Proofs.Schema.Columns
import Ese.Proofs.Tree.Trail
/-!
Listings: what a catalog says of tables that were written one after the other. The entries of a
listing open a table at the end and add its columns there, so tables with different names come out
in the order in which they are listed.
-/

namespace Ese.Build

structure ColumnSpec where
  name : String
  id : UInt32
  type : UInt32
  width : UInt32
  codePage : UInt32
  deriving DecidableEq

def ColumnSpec.column (c : ColumnSpec) : Column :=
  { id := c.id, name := c.name, type := .ofCode c.type, width := c.width, flags := 0,
    codePage := c.codePage }

structure Listing where
  name : String
  objectId : UInt32
  root : UInt32
  columns : List ColumnSpec
  deriving DecidableEq

namespace Listing

def records (l : Listing) : List Bytes :=
  tableRecord l.name l.objectId l.root :: l.columns.map fun c =>
    columnRecord l.objectId c.name c.id c.type c.width c.codePage

def entries (l : Listing) : List Catalog.Entry :=
  .table l.name l.objectId ⟨l.root⟩ :: l.columns.map fun c => .column l.objectId c.column

def table (l : Listing) : Table where
  name := l.name
  objectId := l.objectId
  root := ⟨l.root⟩
  columns := l.columns.foldl (fun cs c => cs.insert c.column) .empty

def lastColumn? (l : Listing) (id : UInt32) : Option ColumnSpec :=
  l.columns.reverse.find? fun c => c.id = id

/-- The names are read back as they are written. -/
structure Plain (l : Listing) : Prop where
  name : Text.Plain l.name
  columns : ∀ c ∈ l.columns, Text.Plain c.name

end Listing

theorem length_catalogRecord (objectId identifier typeOrRoot width flags codePageOrLocale : UInt32)
    (kind : UInt16) (name : String) :
    (catalogRecord objectId kind identifier typeOrRoot width flags codePageOrLocale name).length =
      33 + (utf8 name).length := by
  rw [Catalog.catalogRecord_eq]
  simp only [List.length_cons, List.length_append, LittleEndian.length_encode]
  omega

namespace Listing

variable {l : Listing}

theorem byId?_table (l : Listing) (id : UInt32) :
    l.table.columns.byId? id = (l.lastColumn? id).map (·.column) := by
  have hfold : l.table.columns = (l.columns.map (·.column)).foldl Columns.insert .empty := by
    rw [List.foldl_map]
    rfl
  rw [hfold, Columns.byId?_foldl_insert, ← List.map_reverse, List.find?_map]
  exact Option.or_none

/-- The records of a listing decode to its entries, if they are short enough for a page. -/
theorem mapM_decode (h : l.Plain) (hlen : ∀ r ∈ l.records, r.length ≤ 0x8000) :
    l.records.mapM Catalog.Entry.decode = .ok l.entries := by
  have htable : Catalog.Entry.decode (tableRecord l.name l.objectId l.root) =
      .ok (.table l.name l.objectId ⟨l.root⟩) := by
    have hle := hlen _ List.mem_cons_self
    rw [tableRecord, length_catalogRecord] at hle
    exact Catalog.decode_catalogRecord h.name (by omega) (Segment.whole _)
  have hcolumns : ∀ c ∈ l.columns, Catalog.Entry.decode
      (columnRecord l.objectId c.name c.id c.type c.width c.codePage) =
        .ok (.column l.objectId c.column) := by
    intro c hc
    have hle := hlen _ (List.mem_cons_of_mem _ (List.mem_map_of_mem hc))
    rw [columnRecord, length_catalogRecord] at hle
    exact Catalog.decode_catalogRecord (h.columns c hc) (by omega) (Segment.whole _)
  rw [records, List.mapM_cons, htable, List.mapM_map, Function.comp_def,
    Outcome.mapM_of_ok hcolumns]
  rfl

end Listing

end Ese.Build

namespace Ese.Catalog

open Build

theorem place_new {t : Table} {tables : List Table} (h : ∀ u ∈ tables, u.name ≠ t.name) :
    Builder.place t tables = tables ++ [t] := by
  induction tables with
  | nil => rfl
  | cons u rest ih =>
    rw [Builder.place, if_neg (h u List.mem_cons_self),
      ih fun v hv => h v (List.mem_cons_of_mem u hv)]
    rfl

theorem foldlM_columns (objectId : UInt32) (columns : List ColumnSpec) {tables : List Table}
    {t : Table} (h : ∀ u ∈ tables, u.name ≠ t.name) :
    (columns.map fun c => Entry.column objectId c.column).foldlM Builder.push
        ⟨tables ++ [t], some t.name⟩ =
      .ok ⟨tables ++ [{ t with
        columns := columns.foldl (fun cs c => cs.insert c.column) t.columns }], some t.name⟩ := by
  induction columns generalizing t with
  | nil => rfl
  | cons c columns ih =>
    have hpush : Builder.push ⟨tables ++ [t], some t.name⟩ (.column objectId c.column) =
        .ok ⟨tables ++ [t.addColumn c.column], some t.name⟩ := by
      have hsame : (tables.map fun u => if u.name = t.name then u.addColumn c.column else u) =
          tables := by
        conv => rhs; rw [← List.map_id tables]
        exact List.map_congr_left fun u hu => if_neg (h u hu)
      simp only [Builder.push, Builder.updateCurrent, List.map_append, hsame, List.map_cons,
        List.map_nil, ↓reduceIte]
    rw [List.map_cons, List.foldlM_cons, hpush]
    exact ih (t := t.addColumn c.column) h

theorem foldlM_listing {tables : List Table} (current : Option String) {l : Listing}
    (h : ∀ u ∈ tables, u.name ≠ l.name) :
    l.entries.foldlM Builder.push ⟨tables, current⟩ = .ok ⟨tables ++ [l.table], some l.name⟩ := by
  have hopen : Builder.push ⟨tables, current⟩ (.table l.name l.objectId ⟨l.root⟩) =
      .ok ⟨tables ++ [{ name := l.name, objectId := l.objectId, root := ⟨l.root⟩ }],
        some l.name⟩ := by
    rw [Builder.push, Builder.openTable, place_new h]
  rw [Listing.entries, List.foldlM_cons, hopen]
  exact foldlM_columns l.objectId l.columns h

/-- Listings with different names make the tables they list, in order. -/
theorem foldlM_listings (ls : List Listing) {b : Builder}
    (hnew : ∀ l ∈ ls, ∀ u ∈ b.tables, u.name ≠ l.name) (hnodup : (ls.map (·.name)).Nodup) :
    ∃ current, (ls.flatMap (·.entries)).foldlM Builder.push b =
      .ok ⟨b.tables ++ ls.map (·.table), current⟩ := by
  induction ls generalizing b with
  | nil => exact ⟨b.current, by simp; rfl⟩
  | cons l ls ih =>
    obtain ⟨hl, hnodup⟩ := List.nodup_cons.mp hnodup
    have hfirst := foldlM_listing b.current (hnew l List.mem_cons_self)
    have hnext : ∀ m ∈ ls, ∀ u ∈ b.tables ++ [l.table], u.name ≠ m.name := by
      intro m hm u hu
      rcases List.mem_append.mp hu with hu | hu
      · exact hnew m (List.mem_cons_of_mem l hm) u hu
      · obtain rfl := List.mem_singleton.mp hu
        intro heq
        exact hl (List.mem_map.mpr ⟨m, hm, heq.symm⟩)
    obtain ⟨current, hrest⟩ := ih (b := ⟨b.tables ++ [l.table], some l.name⟩) hnext hnodup
    refine ⟨current, ?_⟩
    rw [List.flatMap_cons, List.foldlM_append, hfirst]
    refine Eq.trans hrest ?_
    simp

end Ese.Catalog
