import Mathlib
import Ese.Proofs.Record.Areas
/-!
Records round trip. The areas of an encoded record stand where the ones before them end, so each of
them is read back, and a record decodes to its reference row on every layout that can hold it.
-/

namespace Ese.Build.Record

open Ese.Record

def slots (layout : Layout) (r : Record) : List Slot :=
  slotsFrom layout r.tagged (4 * r.tagged.length)

/-- The record has a form on this layout, and the table knows its fixed columns by their widths. -/
structure Fits (r : Record) (table : Table) (layout : Layout) : Prop where
  fixed_count : r.fixed.length ≤ 127
  variable_count : r.varying.length ≤ 128
  widths : ∀ f ∈ r.fixed.zipIdx 1,
    (table.columns.byId? (.ofNat f.2)).bind (·.fixedWidth) = some f.1.data.length
  variable_offset : r.variableOffset < 0x10000
  variable_room : (variableData r.varying).length ≤ 0x7FFF
  tagged_room : ∀ s ∈ r.slots layout, s.offset ≤ maxTaggedOffset layout

instance (r : Record) (table : Table) (layout : Layout) : Decidable (r.Fits table layout) :=
  decidable_of_iff
    (r.fixed.length ≤ 127 ∧ r.varying.length ≤ 128 ∧
      (∀ f ∈ r.fixed.zipIdx 1,
        (table.columns.byId? (.ofNat f.2)).bind (·.fixedWidth) = some f.1.data.length) ∧
      r.variableOffset < 0x10000 ∧ (variableData r.varying).length ≤ 0x7FFF ∧
      ∀ s ∈ r.slots layout, s.offset ≤ maxTaggedOffset layout)
    ⟨fun ⟨a, b, c, d, e, f⟩ => ⟨a, b, c, d, e, f⟩, fun ⟨a, b, c, d, e, f⟩ => ⟨a, b, c, d, e, f⟩⟩

def header (r : Record) : Header :=
  ⟨.ofNat r.fixed.length, .ofNat (127 + r.varying.length), .ofNat r.variableOffset⟩

theorem length_variableDirectory (fields : List (Option Bytes)) (position : Nat) :
    (variableDirectory fields position).length = 2 * fields.length := by
  induction fields generalizing position with
  | nil => rfl
  | cons v fields ih =>
    cases v <;> simp [variableDirectory, ih] <;> omega

section areas

variable {r : Record} {table : Table} {layout : Layout}

theorem Fits.directoryStart (h : r.Fits table layout) :
    r.header.directoryStart = r.variableOffset :=
  Field.toNat_ofNat h.variable_offset

theorem Fits.lastFixed (h : r.Fits table layout) : r.header.lastFixed.toNat = r.fixed.length :=
  Field.toNat_ofNat8 (by have := h.fixed_count; omega)

theorem Fits.bitmapLength (h : r.Fits table layout) : r.header.bitmapLength = r.bitmapLength := by
  rw [Header.bitmapLength, h.lastFixed, Record.bitmapLength]

theorem Fits.variableCount (h : r.Fits table layout) :
    r.header.variableCount = r.varying.length := by
  have hcount := h.variable_count
  have hlast : (UInt8.ofNat (127 + r.varying.length)).toNat = 127 + r.varying.length :=
    Field.toNat_ofNat8 (by omega)
  change (UInt8.ofNat (127 + r.varying.length)).toNat - 127 = _
  rw [hlast, Nat.add_sub_cancel_left]

theorem Fits.variableStart (h : r.Fits table layout) :
    r.header.variableStart = r.variableOffset + 2 * r.varying.length := by
  rw [Header.variableStart, h.directoryStart, h.variableCount]

/-- The areas of an encoded record, each behind the ones before it. -/
structure Areas (r : Record) (layout : Layout) (record : Bytes) : Prop where
  header : Header.read record = .ok r.header
  fixed : Segment record 4 r.fixedData
  bitmap : Segment record (4 + r.fixedData.length) (bitmap r.bitmapLength (r.fixed.map (·.isNull)))
  directory : Segment record r.variableOffset (variableDirectory r.varying 0)
  varying : Segment record (r.variableOffset + 2 * r.varying.length) (variableData r.varying)
  tagged : Segment record
    (r.variableOffset + 2 * r.varying.length + (variableData r.varying).length)
    (taggedArea layout r.tagged)
  tagged_end : r.variableOffset + 2 * r.varying.length + (variableData r.varying).length +
    (taggedArea layout r.tagged).length = record.length

theorem areas (r : Record) (layout : Layout) : r.Areas layout (r.encode layout) := by
  have hwhole : Segment (r.encode layout) 0
      (.ofNat r.fixed.length :: .ofNat (127 + r.varying.length) ::
        (LittleEndian.encode 2 r.variableOffset ++ (r.fixedData ++
          (Record.bitmap r.bitmapLength (r.fixed.map (·.isNull)) ++
            (variableDirectory r.varying 0 ++ (variableData r.varying ++
              taggedArea layout r.tagged)))))) :=
    ⟨[], [], by simp [encode], rfl⟩
  have hlen : r.variableOffset + 2 * r.varying.length + (variableData r.varying).length +
      (taggedArea layout r.tagged).length = (r.encode layout).length := by
    simp [encode, variableOffset, length_variableDirectory]
    omega
  generalize r.encode layout = record at hlen hwhole
  have hoffset := hwhole.tail.tail
  have hfixed := hoffset.after 4 rfl
  have hbitmap := hfixed.right
  have hdirectory := hbitmap.after r.variableOffset (by simp [variableOffset])
  have hvarying := hdirectory.right
  rw [length_variableDirectory] at hvarying
  have hheader : Header.read record = .ok r.header := by
    rw [Header.read, hwhole.head.readU8_eq, hwhole.tail.head.readU8_eq, hoffset.left.readU16_eq]
    rfl
  exact {
    header := hheader
    fixed := hfixed.left
    bitmap := hbitmap.left
    directory := hdirectory.left
    varying := hvarying.left
    tagged := hvarying.right
    tagged_end := hlen }

variable {record : Bytes}

theorem Fits.columnsFrom (table : Table) : ColumnsFrom table 1 table.columns.fixed where
  sorted := table.columns.sorted.filter _
  from_id c hc := by
    have h := (List.mem_filter.mp hc).2
    simp only [Bool.and_eq_true, decide_eq_true_eq, UInt32.le_iff_toNat_le] at h
    exact h.1
  mem c hc := (List.mem_filter.mp hc).1

theorem Fits.fixed_column (h : r.Fits table layout) {i : Nat} (hi : i < r.fixed.length) :
    ∃ c ∈ table.columns.fixed, c.id.toNat = 1 + i ∧ c.fixedWidth = some r.fixed[i].data.length := by
  have hcount := h.fixed_count
  have hmem : (r.fixed[i], 1 + i) ∈ r.fixed.zipIdx 1 := by
    rw [List.mk_mem_zipIdx_iff_le_and_getElem?_sub]
    simp [hi]
  obtain ⟨c, hc, hw⟩ := Option.bind_eq_some_iff.mp (h.widths _ hmem)
  obtain ⟨hc, hid⟩ := Columns.byId?_eq_some_iff.mp hc
  have hid : c.id.toNat = 1 + i := by
    rw [hid]
    exact UInt32.toNat_ofNat_of_lt' (show 1 + i < 4294967296 by omega)
  refine ⟨c, List.mem_filter.mpr ⟨hc, ?_⟩, hid, hw⟩
  simp only [Bool.and_eq_true, decide_eq_true_eq, UInt32.le_iff_toNat_le, hid]
  exact ⟨Nat.le_add_right 1 i, show 1 + i ≤ 127 by omega⟩

theorem Areas.fills_fixed (ha : r.Areas layout record) (h : r.Fits table layout)
    (longValues : LongValues) :
    Fills (decodeFixed ⟨table, layout, longValues⟩ record r.header) ()
      (joined (plainCells table) r.presentFixed) := by
  have hbits : readBitmap record r.header =
      .ok (Record.bitmap r.bitmapLength (r.fixed.map (·.isNull))) := by
    rw [readBitmap, h.directoryStart, h.bitmapLength, if_neg (by simp [variableOffset])]
    rw [show r.variableOffset - r.bitmapLength = 4 + r.fixedData.length by simp [variableOffset]]
    exact ha.bitmap.slice_eq .nullBitmap (by simp)
  apply Fills.read hbits
  apply fills_fixedFrom r.fixed table.columns.fixed 1 fixedStart (Fits.columnsFrom table)
  · intro i hi
    exact h.fixed_column hi
  · intro i hi cid hcid
    have hid : cid.toNat = i + 1 := by omega
    have hn := isNull_bitmap (n := r.bitmapLength) (r.fixed.map (·.isNull)) hid (by simpa using hi)
      (by simp [Record.bitmapLength]; omega)
    simpa using hn
  · rw [h.lastFixed, Nat.add_comm]
  · exact ha.fixed

theorem Areas.fills_variable (ha : r.Areas layout record) (h : r.Fits table layout)
    (longValues : LongValues) :
    Fills (decodeVariable ⟨table, layout, longValues⟩ record r.header)
      (r.variableOffset + 2 * r.varying.length + (variableData r.varying).length)
      (joined (plainCells table) r.presentVariable) := by
  have hroom := h.variable_room
  have hfrom := fills_variableFrom ⟨table, layout, longValues⟩ record r.header r.varying 0 0
    (by rw [h.directoryStart]; exact ha.directory) (by rw [h.variableStart]; exact ha.varying)
    (by omega)
  unfold decodeVariable
  rw [h.variableCount, h.variableStart]
  rw [Nat.zero_add] at hfrom
  exact Fills.answer (r.variableOffset + 2 * r.varying.length + ·) hfrom

theorem Areas.fills_tagged (ha : r.Areas layout record) (h : r.Fits table layout)
    (longValues : LongValues) :
    Fills (decodeTagged ⟨table, layout, longValues⟩ record
        (r.variableOffset + 2 * r.varying.length + (variableData r.varying).length)) ()
      (joined (fieldCells table longValues) r.tagged) := by
  have hlen := ha.tagged_end
  have hseg := ha.tagged
  generalize r.variableOffset + 2 * r.varying.length + (variableData r.varying).length = start
    at hlen hseg
  unfold taggedArea at hlen hseg
  rw [List.length_append, length_taggedDirectory] at hlen
  have hvalues := hseg.right
  rw [length_taggedDirectory] at hvalues
  apply Fills.read (readSlots_directory hseg.left h.tagged_room
    (fun hnil => by simpa [hnil] using hlen))
  exact fills_slots ⟨table, layout, longValues⟩ r.tagged (4 * r.tagged.length) hvalues
    (by simp only; omega)

end areas

theorem fills_record {r : Record} {table : Table} {layout : Layout} (longValues : LongValues)
    (h : r.Fits table layout) :
    Fills (decodeInto ⟨table, layout, longValues⟩ (r.encode layout)) ()
      (r.cells table longValues) := by
  have ha := areas r layout
  refine Fills.read ha.header ?_
  refine Fills.bind (ha.fills_fixed h longValues) ?_
  exact Fills.bind (ha.fills_variable h longValues) (ha.fills_tagged h longValues)

/-- A record that the layout can hold decodes to its reference row, and fails where that fails. -/
theorem decode_encode (r : Record) (table : Table) (layout : Layout) (longValues : LongValues)
    (h : r.Fits table layout) :
    Record.decode ⟨table, layout, longValues⟩ (r.encode layout) = r.reference table longValues :=
  (fills_record longValues h).decode_eq

def mixedTable : Table where
  name := "Mixed"
  objectId := 9
  root := ⟨5⟩
  columns := Columns.empty.insert ⟨1, "Count", .short, 2, 0, 0⟩
    |>.insert ⟨2, "Other", .long, 4, 0, 0⟩
    |>.insert ⟨128, "Name", .text, 0, 0, 1252⟩
    |>.insert ⟨256, "Body", .longText, 0, 0, 1252⟩

/-- Nulls, an empty value, values of columns that are not in the table and several values in one. -/
def mixed : Record where
  fixed := [⟨[7, 0], false⟩, ⟨[0, 0, 0, 0], true⟩]
  varying := [some [0x61], none, some []]
  tagged := [⟨256, 0, [0x62]⟩, ⟨300, 0, []⟩, ⟨256, 0x08, [1, 2]⟩]

theorem decode_encode_mixed :
    mixed.Fits mixedTable ⟨0x620, 0x11, 16384⟩ ∧
      Record.decode ⟨mixedTable, ⟨0x620, 0x11, 16384⟩, {}⟩ (mixed.encode ⟨0x620, 0x11, 16384⟩) =
        .ok {
          columns := [("Count", .int 7), ("Name", .string "a"), ("Body", .string "b"),
            ("Body", .bytes [1, 2])]
          warnings := [.multiValue "Body"] } := by
  have hfits : mixed.Fits mixedTable ⟨0x620, 0x11, 16384⟩ := by decide
  refine ⟨hfits, ?_⟩
  rw [decode_encode mixed mixedTable ⟨0x620, 0x11, 16384⟩ {} hfits]
  rfl

end Ese.Build.Record
