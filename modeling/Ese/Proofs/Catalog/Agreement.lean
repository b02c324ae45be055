import Mathlib
import Ese.Catalog.Entry
import Ese.Proofs.Record.Areas
import Ese.Proofs.Record.Lead
import Ese.Proofs.Schema.Columns
/-!
Catalog records are records. Read with a table that has their columns, such a record gives a row
that has the fields the catalog takes from fixed offsets, and the name that it looks up on its own.
-/

namespace Ese.Catalog

open Ese.Record

/-- The columns of a table that the fields of catalog records stand in. -/
structure FieldColumns where
  objectId : Column
  kind : Column
  identifier : Column
  typeOrRoot : Column
  width : Column
  flags : Column
  codePageOrLocale : Column
  name : Column

structure Stores (table : Table) (c : Column) (id : UInt32) (type : ColumnType) (width : Nat) :
    Prop where
  mem : c ∈ table.columns.toList
  id : c.id = id
  type : c.type = type
  width : c.fixedWidth = some width

/-- Seven numbers in fixed columns and a name in the first variable column. There may be other
columns, but none of the same name as another. -/
structure FieldColumns.Describe (c : FieldColumns) (table : Table) : Prop where
  objectId : Stores table c.objectId 1 .long 4
  kind : Stores table c.kind 2 .short 2
  identifier : Stores table c.identifier 3 .long 4
  typeOrRoot : Stores table c.typeOrRoot 4 .long 4
  width : Stores table c.width 5 .long 4
  flags : Stores table c.flags 6 .long 4
  codePageOrLocale : Stores table c.codePageOrLocale 7 .long 4
  name : table.columns.byId? 128 = some c.name
  text : c.name.type = .text
  codePage : c.name.codePage = 1252
  distinct : (table.columns.toList.map (·.name)).Nodup

/-- The record has the fixed columns and the first variable column, and none of them is null. -/
structure Filled (record : Bytes) (h : Header) : Prop where
  header : Header.read record = .ok h
  fixed : 7 ≤ h.lastFixed
  varying : 128 ≤ h.lastVariable
  /-- The lowest bits of the bitmap are those of the columns from one on. -/
  present : ∀ bit < 7, (record.getD h.bitmap.first 0).toNat.testBit bit = false
  named : ∀ raw, readU16 record h.directoryStart .variableDirectory = .ok raw →
    ¬ (VariableEnd.ofRaw raw).isNull

/-- The number in a column of a row, with its sign in the high bits. -/
def number? (row : Row) (c : Column) : Option UInt64 :=
  ((row.get? c.name).bind Value.asInt?).map Int64.toUInt64

def text? (row : Row) (c : Column) : Option String := (row.get? c.name).bind Value.asString?

/-- The fields that the values of a row make. Of a number the low bits count. -/
def Fields.ofRow (c : FieldColumns) (row : Row) : Option Fields := do
  return {
    objectId := (← number? row c.objectId).toUInt32
    kind := (← number? row c.kind).toUInt16
    identifier := (← number? row c.identifier).toUInt32
    typeOrRoot := (← number? row c.typeOrRoot).toUInt32
    width := (← number? row c.width).toUInt32
    flags := (← number? row c.flags).toUInt32
    codePageOrLocale := (← number? row c.codePageOrLocale).toUInt32
    name := ← text? row c.name }

def FieldColumns.lead (c : FieldColumns) : List (Column × Nat) :=
  [(c.objectId, 4), (c.kind, 2), (c.identifier, 4), (c.typeOrRoot, 4), (c.width, 4), (c.flags, 4),
   (c.codePageOrLocale, 4)]

namespace FieldColumns.Describe

variable {c : FieldColumns} {table : Table} (h : c.Describe table)

include h

theorem mem_lead : ∀ x ∈ c.lead, x.1 ∈ table.columns.toList ∧ x.1.fixedWidth = some x.2 := by
  simp only [lead, List.forall_mem_cons, List.not_mem_nil, false_implies, implies_true, and_true]
  exact ⟨⟨h.objectId.mem, h.objectId.width⟩, ⟨h.kind.mem, h.kind.width⟩,
    ⟨h.identifier.mem, h.identifier.width⟩, ⟨h.typeOrRoot.mem, h.typeOrRoot.width⟩,
    ⟨h.width.mem, h.width.width⟩, ⟨h.flags.mem, h.flags.width⟩,
    ⟨h.codePageOrLocale.mem, h.codePageOrLocale.width⟩⟩

theorem ids_lead : (c.lead.map (·.1)).map (·.id.toNat) = List.range' 1 7 := by
  simp [lead, h.objectId.id, h.kind.id, h.identifier.id, h.typeOrRoot.id, h.width.id, h.flags.id,
    h.codePageOrLocale.id, List.range']

theorem id_of_mem_lead {d : Column} (hd : d ∈ c.lead.map (·.1)) :
    1 ≤ d.id.toNat ∧ d.id.toNat ≤ 7 := by
  have hid : d.id.toNat ∈ List.range' 1 7 := h.ids_lead ▸ List.mem_map_of_mem hd
  rw [List.mem_range'_1] at hid
  omega

/-- The fields are the first of the fixed columns. -/
theorem fixed_eq : ∃ rest, table.columns.fixed = c.lead.map (·.1) ++ rest := by
  have hsorted : table.columns.fixed.Pairwise fun a b => a.id < b.id :=
    table.columns.sorted.filter _
  refine exists_eq_append (n := 1) hsorted ?_ ?_ h.ids_lead
  · intro d hd
    have hid := (List.mem_filter.mp hd).2
    simp only [Bool.and_eq_true, decide_eq_true_eq, UInt32.le_iff_toNat_le] at hid
    exact hid.1
  · intro d hd
    have hid := h.id_of_mem_lead hd
    obtain ⟨x, hx, rfl⟩ := List.mem_map.mp hd
    refine List.mem_filter.mpr ⟨(h.mem_lead x hx).1, ?_⟩
    simp only [Bool.and_eq_true, decide_eq_true_eq, UInt32.le_iff_toNat_le, Column.lastFixed]
    change 1 ≤ _ ∧ _ ≤ 127
    omega

end FieldColumns.Describe

theorem Filled.isNull_eq {record : Bytes} {h : Header} (hf : Filled record h)
    (hwithin : h.bitmap.Within record) (hroom : h.bitmapLength ≤ h.directoryStart) {id : UInt32}
    (hfirst : 1 ≤ id.toNat) (hlast : id.toNat ≤ 7) :
    isNull (h.bitmap.of record) id = .ok false := by
  obtain ⟨bit, hbit⟩ : ∃ bit, id.toNat = bit + 1 := ⟨id.toNat - 1, by omega⟩
  have hlength : 1 ≤ h.bitmapLength := by
    have hfixed := UInt8.le_iff_toNat_le.mp hf.fixed
    change 7 ≤ _ at hfixed
    unfold Header.bitmapLength
    omega
  have hinside : h.directoryStart ≤ record.length := hwithin.inside
  have hspan : h.bitmap.last - h.bitmap.first = h.bitmapLength := by
    simp only [Header.bitmap]
    omega
  have hbyte : (h.bitmap.of record)[0]? = some (record.getD h.bitmap.first 0) := by
    have hlt : h.bitmap.first < record.length := by
      simp only [Header.bitmap]
      omega
    rw [Span.of, List.getElem?_take_of_lt (by omega), List.getElem?_drop, Nat.add_zero,
      List.getD_eq_getElem?_getD, List.getElem?_eq_getElem hlt]
    rfl
  have hclear := hf.present bit (by omega)
  unfold isNull
  rw [hbit]
  simp only [show bit / 8 = 0 by omega, show bit % 8 = bit by omega, hbyte,
    Build.Record.bit_eq_testBit _ (show bit < 8 by omega), hclear]

/-- The fields stand in front of the other fixed values. -/
theorem Filled.fields_eq {c : FieldColumns} {table : Table} (h : c.Describe table)
    {record : Bytes} {header : Header} (hf : Filled record header) :
    ∃ more, fixedFields header.lastFixed table.columns.fixed fixedStart =
      leadFields c.lead fixedStart ++ more := by
  obtain ⟨others, hothers⟩ := h.fixed_eq
  have hlast : 7 ≤ header.lastFixed.toNat := UInt8.le_iff_toNat_le.mp hf.fixed
  refine ⟨_, hothers ▸ fixedFields_lead others fixedStart fun x hx => ⟨?_, (h.mem_lead x hx).2⟩⟩
  have hid := h.id_of_mem_lead (List.mem_map_of_mem hx)
  rw [gt_iff_lt, UInt32.lt_iff_toNat_lt, UInt8.toNat_toUInt32]
  omega

/-- What catalog records and rows have to do with each other: the fields that are read at fixed
offsets are those that the values of the row make, and by their kind they make the entry. -/
structure Agreement (c : FieldColumns) (record : Bytes) (row : Row) (f : Fields) : Prop where
  row : Fields.ofRow c row = some f
  read : Fields.read record = .ok f
  table : f.kind = 1 → Entry.decode record = .ok (.table f.name f.objectId ⟨f.typeOrRoot⟩)
  column : f.kind = 2 → Entry.decode record = .ok (.column f.objectId
    { id := f.identifier, name := f.name, type := .ofCode f.typeOrRoot, width := f.width
      flags := f.flags, codePage := f.codePageOrLocale })
  index : f.kind = 3 →
    Entry.decode record = .ok (.index f.objectId ⟨f.name, ⟨f.typeOrRoot⟩, f.codePageOrLocale⟩)
  longValue : f.kind = 4 →
    Entry.decode record = .ok (.longValue f.objectId ⟨f.name, ⟨f.typeOrRoot⟩⟩)
  callback : f.kind = 5 → Entry.decode record = .ok (.callback f.name)
  unknown : (∃ cause, Entry.decode record = .error (.schema cause)) ↔
    f.kind ∉ ([1, 2, 3, 4, 5] : List UInt16)

theorem agreement_of_read {c : FieldColumns} {record : Bytes} {row : Row} {f : Fields}
    (hrow : Fields.ofRow c row = some f) (hread : Fields.read record = .ok f) :
    Agreement c record row f := by
  have hentry : Entry.decode record = f.entry := by
    rw [Entry.decode, hread]
    rfl
  have hkinds : f.kind ∈ ([1, 2, 3, 4, 5] : List UInt16) ↔
      f.kind = 1 ∨ f.kind = 2 ∨ f.kind = 3 ∨ f.kind = 4 ∨ f.kind = 5 := by simp
  refine ⟨hrow, hread, ?_, ?_, ?_, ?_, ?_, ?_⟩
  case refine_6 =>
    rw [hentry, Fields.entry, hkinds]
    constructor
    · rintro ⟨cause, hcause⟩ hkind
      rcases hkind with hkind | hkind | hkind | hkind | hkind <;> simp [hkind] at hcause
    · intro hkind
      simp only [not_or] at hkind
      simp [hkind]
  all_goals
    intro hkind
    rw [hentry, Fields.entry]
    simp [hkind]

theorem leadFields_eq (c : FieldColumns) : leadFields c.lead fixedStart =
    [(c.objectId, ⟨4, 8⟩), (c.kind, ⟨8, 10⟩), (c.identifier, ⟨10, 14⟩), (c.typeOrRoot, ⟨14, 18⟩),
     (c.width, ⟨18, 22⟩), (c.flags, ⟨22, 26⟩), (c.codePageOrLocale, ⟨26, 30⟩)] := rfl

def Fields.cells (f : Fields) (c : FieldColumns) : List Cell :=
  [⟨c.objectId.name, .ofI32 f.objectId, none⟩, ⟨c.kind.name, .ofI16 f.kind, none⟩,
   ⟨c.identifier.name, .ofI32 f.identifier, none⟩, ⟨c.typeOrRoot.name, .ofI32 f.typeOrRoot, none⟩,
   ⟨c.width.name, .ofI32 f.width, none⟩, ⟨c.flags.name, .ofI32 f.flags, none⟩,
   ⟨c.codePageOrLocale.name, .ofI32 f.codePageOrLocale, none⟩]

structure Fields.Stand (f : Fields) (record : Bytes) : Prop where
  objectId : readU32 record 4 .catalogRecord = .ok f.objectId
  kind : readU16 record 8 .catalogRecord = .ok f.kind
  identifier : readU32 record 10 .catalogRecord = .ok f.identifier
  typeOrRoot : readU32 record 14 .catalogRecord = .ok f.typeOrRoot
  width : readU32 record 18 .catalogRecord = .ok f.width
  flags : readU32 record 22 .catalogRecord = .ok f.flags
  codePageOrLocale : readU32 record 26 .catalogRecord = .ok f.codePageOrLocale
  name : itemName record = .ok f.name

theorem Fields.Stand.read {f : Fields} {record : Bytes} (h : f.Stand record) :
    Fields.read record = .ok f := by
  unfold Fields.read
  rw [h.objectId, h.kind, h.identifier, h.typeOrRoot, h.width, h.flags, h.codePageOrLocale, h.name]
  rfl

/-- Fixed values that are not null have the numbers in front. -/
theorem numbers_of_joined {c : FieldColumns} {table : Table} (h : c.Describe table)
    {record bitmap : Bytes} {more : List (Column × Span)} {cells : List Cell}
    (hcells : joined (fixedCells record bitmap) (leadFields c.lead fixedStart ++ more) = .ok cells)
    (hpresent : ∀ f ∈ leadFields c.lead fixedStart, isNull bitmap f.1.id = .ok false)
    (hwithin : ∀ f ∈ leadFields c.lead fixedStart, f.2.Within record) {name : String}
    (hname : itemName record = .ok name) :
    ∃ f : Fields, f.Stand record ∧ f.name = name ∧ ∃ rest, cells = f.cells c ++ rest := by
  obtain ⟨front, rest, hfront, hrest, rfl⟩ := of_joined_append hcells
  have hplain := plain_of_joined hpresent hfront
  rw [leadFields_eq] at hplain hwithin
  simp only [List.forall_mem_cons] at hwithin
  obtain ⟨w₁, w₂, w₃, w₄, w₅, w₆, w₇, -⟩ := hwithin
  match front, hplain with
  | _, .cons h₁ (.cons h₂ (.cons h₃ (.cons h₄ (.cons h₅ (.cons h₆ (.cons h₇ .nil)))))) =>
    obtain ⟨objectId, hobjectId, rfl⟩ := of_plainCell_long h.objectId.type w₁ h₁
    obtain ⟨kind, hkind, rfl⟩ := of_plainCell_short h.kind.type w₂ h₂
    obtain ⟨identifier, hidentifier, rfl⟩ := of_plainCell_long h.identifier.type w₃ h₃
    obtain ⟨typeOrRoot, htypeOrRoot, rfl⟩ := of_plainCell_long h.typeOrRoot.type w₄ h₄
    obtain ⟨width, hwidth, rfl⟩ := of_plainCell_long h.width.type w₅ h₅
    obtain ⟨flags, hflags, rfl⟩ := of_plainCell_long h.flags.type w₆ h₆
    obtain ⟨codePage, hcodePage, rfl⟩ := of_plainCell_long h.codePageOrLocale.type w₇ h₇
    exact ⟨⟨objectId, kind, identifier, typeOrRoot, width, flags, codePage, name⟩,
      ⟨hobjectId _, hkind _, hidentifier _, htypeOrRoot _, hwidth _, hflags _, hcodePage _, hname⟩,
      rfl, rest, rfl⟩

theorem of_header {record : Bytes} {h : Header} (hread : Header.read record = .ok h) (part : Part) :
    readU8 record 1 part = .ok h.lastVariable ∧ readU16 record 2 part = .ok h.variableOffset := by
  obtain ⟨_, -, hread⟩ := Outcome.of_bind_ok hread
  obtain ⟨lastVariable, hlast, hread⟩ := Outcome.of_bind_ok hread
  obtain ⟨offset, hoffset, hread⟩ := Outcome.of_bind_ok hread
  obtain rfl := Except.ok.inj hread
  exact ⟨readU8_part hlast part, readU16_part hoffset part⟩

/-- The first of the variable values is the name that the catalog looks up. -/
theorem name_of_values {record : Bytes} {h : Header} {ends : List VariableEnd}
    (hf : Filled record h) (hends : endsFrom record h h.variableCount 0 = .ok ends)
    (hwithin : ∀ v ∈ valuesFrom h.variableStart ends 0 0, v.2.Within record) :
    ∃ span more, valuesFrom h.variableStart ends 0 0 = (0, span) :: more ∧
      itemName record = .ok (Text.decodeCodePage (span.of record) 1252) := by
  have hlast : 128 ≤ h.lastVariable.toNat := UInt8.le_iff_toNat_le.mp hf.varying
  obtain ⟨count, hcount⟩ : ∃ count, h.variableCount = count + 1 := by
    unfold Header.variableCount
    exact ⟨h.lastVariable.toNat - 128, by omega⟩
  rw [hcount] at hends
  obtain ⟨raw, hraw, hends⟩ := Outcome.of_bind_ok hends
  obtain ⟨rest, -, hends⟩ := Outcome.of_bind_ok hends
  obtain rfl := Except.ok.inj hends
  have hvalues : valuesFrom h.variableStart (VariableEnd.ofRaw raw :: rest) 0 0 =
      (0, ⟨h.variableStart, h.variableStart + (VariableEnd.ofRaw raw).position⟩) ::
        valuesFrom h.variableStart rest 1 (VariableEnd.ofRaw raw).position := by
    rw [valuesFrom, if_neg (hf.named raw hraw), Nat.add_zero]
  rw [hvalues] at hwithin ⊢
  refine ⟨_, _, rfl, ?_⟩
  have hinside := (hwithin _ List.mem_cons_self).inside
  obtain ⟨hlastRead, hoffsetRead⟩ := of_header hf.header .catalogRecord
  have hstart : h.variableOffset.toNat + 2 * directoryLength h.lastVariable.toNat =
      h.variableStart := by
    unfold directoryLength Header.variableStart Header.variableCount Header.directoryStart
    rw [if_pos (by omega)]
  have hslice : slice record h.variableStart (raw &&& 0x7FFF).toNat .catalogItemName =
      .ok (Span.of ⟨h.variableStart, h.variableStart + (VariableEnd.ofRaw raw).position⟩
        record) := by
    refine slice_eq_ok_iff.mpr ⟨hinside, ?_⟩
    simp [Span.of, VariableEnd.ofRaw]
  have hrawRead : readU16 record h.variableOffset.toNat .catalogItemName = .ok raw :=
    readU16_part hraw .catalogItemName
  simp only [itemName, hlastRead, hoffsetRead, hrawRead, bind, Except.bind, hstart, hslice]
  rfl

theorem ofRow_eq {c : FieldColumns} {f : Fields} {rest : List Cell}
    (hnames : ((f.cells c).map (·.column)).Nodup)
    (hname : (rowOf (f.cells c ++ rest)).get? c.name.name = some (.string f.name)) :
    Fields.ofRow c (rowOf (f.cells c ++ rest)) = some f := by
  have hlong : ∀ col n, (⟨col.name, .ofI32 n, none⟩ : Cell) ∈ f.cells c →
      number? (rowOf (f.cells c ++ rest)) col = some n.toInt32.toInt64.toUInt64 := by
    intro col n hmem
    rw [number?, get?_of_mem hnames hmem]
    rfl
  have hshort : number? (rowOf (f.cells c ++ rest)) c.kind =
      some f.kind.toInt16.toInt64.toUInt64 := by
    have hmem : (⟨c.kind.name, .ofI16 f.kind, none⟩ : Cell) ∈ f.cells c := by simp [Fields.cells]
    rw [number?, get?_of_mem hnames hmem]
    rfl
  have htext : text? (rowOf (f.cells c ++ rest)) c.name = some f.name := by
    rw [text?, hname]
    rfl
  unfold Fields.ofRow
  rw [hlong c.objectId f.objectId (by simp [Fields.cells]), hshort,
    hlong c.identifier f.identifier (by simp [Fields.cells]),
    hlong c.typeOrRoot f.typeOrRoot (by simp [Fields.cells]),
    hlong c.width f.width (by simp [Fields.cells]),
    hlong c.flags f.flags (by simp [Fields.cells]),
    hlong c.codePageOrLocale f.codePageOrLocale (by simp [Fields.cells]), htext]
  simp only [Option.bind_eq_bind, Option.bind_some, toUInt32_ofI32, toUInt16_ofI16]
  rfl

/-- The names of the columns are those of the cells, and the name of the name is another one. -/
theorem FieldColumns.Describe.names {c : FieldColumns} {table : Table} (h : c.Describe table)
    (f : Fields) : ((f.cells c).map (·.column)).Nodup := by
  have hlead : (f.cells c).map (·.column) = (c.lead.map (·.1)).map (·.name) := rfl
  obtain ⟨rest, hfixed⟩ := h.fixed_eq
  have hall : (table.columns.fixed.map (·.name)).Nodup :=
    h.distinct.sublist (List.filter_sublist.map _)
  rw [hfixed, List.map_append] at hall
  rw [hlead]
  exact hall.of_append_left

theorem FieldColumns.Describe.fixed_ne {c : FieldColumns} {table : Table} (h : c.Describe table)
    {d : Column} (hd : d ∈ table.columns.fixed) : d.name ≠ c.name.name := by
  obtain ⟨hmem, hid⟩ := Columns.byId?_eq_some_iff.mp h.name
  obtain ⟨hd, hfixed⟩ := List.mem_filter.mp hd
  intro hname
  have hsame : d = c.name := List.inj_on_of_nodup_map h.distinct hd hmem hname
  rw [hsame, hid] at hfixed
  exact absurd hfixed (by decide)

theorem FieldColumns.Describe.column_ne {c : FieldColumns} {table : Table} (h : c.Describe table)
    {record bitmap : Bytes} {lastFixed : UInt8} {offset : Nat} {cells : List Cell}
    (hcells : joined (fixedCells record bitmap)
      (fixedFields lastFixed table.columns.fixed offset) = .ok cells) {cell : Cell}
    (hcell : cell ∈ cells) : cell.column ≠ c.name.name := by
  obtain ⟨f, hf, own, hown, hmem⟩ := of_mem_joined hcells hcell
  have hcolumn : cell.column = f.1.name := by
    obtain ⟨null, -, hown⟩ := Outcome.of_bind_ok hown
    cases null with
    | true =>
      obtain rfl := Except.ok.inj hown
      cases hmem
    | false =>
      obtain ⟨k, hk, rfl⟩ := Outcome.of_map_ok hown
      obtain rfl := List.mem_singleton.mp hmem
      exact column_of_plainCell hk
  rw [hcolumn]
  exact h.fixed_ne (mem_of_mem_fixedFields hf)

/-- The cells of the variable values start with the name. -/
theorem name_of_joined {c : FieldColumns} {table : Table} (h : c.Describe table) {record : Bytes}
    {span : Span} {more : List (Nat × Span)} {cells : List Cell}
    (hcells : joined (valueCells table record) ((0, span) :: more) = .ok cells) :
    ∃ rest, cells =
      ⟨c.name.name, .string (Text.decodeCodePage (span.of record) 1252), none⟩ :: rest := by
  rw [joined_cons] at hcells
  obtain ⟨own, hown, hcells⟩ := Outcome.of_bind_ok hcells
  obtain ⟨rest, -, hcells⟩ := Outcome.of_bind_ok hcells
  obtain rfl := Except.ok.inj hcells
  have hid : variableId 0 = 128 := rfl
  simp only [valueCells, hid, h.name, plainCell, Value.decode, h.text, h.codePage] at hown
  obtain rfl := Except.ok.inj hown
  exact ⟨rest, rfl⟩

theorem of_divide {schema : Schema} {record : Bytes} {d : Division}
    (h : divide schema record = .ok d) : Header.read record = .ok d.header ∧
      endsFrom record d.header d.header.variableCount 0 = .ok d.ends := by
  obtain ⟨header, hheader, hrest⟩ := Outcome.of_bind_ok h
  obtain ⟨ends, hends, hrest⟩ := Outcome.of_bind_ok hrest
  obtain ⟨slots, -, hrest⟩ := Outcome.of_bind_ok hrest
  obtain rfl := Except.ok.inj hrest
  exact ⟨hheader, hends⟩

/-- A record that decodes with such a table is a catalog record with the fields of its row. -/
theorem agreement_of_decode {c : FieldColumns} {schema : Schema} (h : c.Describe schema.table)
    {record : Bytes} {header : Header} (hf : Filled record header) {row : Row}
    (hdecode : decode schema record = .ok row) : ∃ f, Agreement c record row f := by
  obtain ⟨d, hy⟩ := yields_of_decode hdecode
  obtain ⟨hheader, hends⟩ := of_divide hy.divided
  obtain rfl : d.header = header := Except.ok.inj (hheader.symm.trans hf.header)
  obtain ⟨cells, hcells, rfl⟩ := hy.cells
  obtain ⟨front, hfront, hcells⟩ := Outcome.of_bind_ok hcells
  obtain ⟨behind, hbehind, hcells⟩ := Outcome.of_bind_ok hcells
  obtain rfl := Except.ok.inj hcells
  obtain ⟨middle, hmiddle, hbehind⟩ := Outcome.of_bind_ok hbehind
  obtain ⟨back, -, hbehind⟩ := Outcome.of_bind_ok hbehind
  obtain rfl := Except.ok.inj hbehind
  -- the name, and the cell that the variable area has for it
  obtain ⟨span, more, hvalues, hname⟩ := name_of_values hf hends hy.values
  rw [show d.values = (0, span) :: more from hvalues] at hmiddle
  obtain ⟨rest, rfl⟩ := name_of_joined h hmiddle
  -- the numbers, and the cells that the fixed area has for them
  have hcolumns : ∀ cell ∈ front, cell.column ≠ c.name.name := fun cell hcell =>
    h.column_ne hfront hcell
  obtain ⟨others, hfields⟩ := hf.fields_eq h
  have hwithin := hy.fixed
  rw [show d.fixed schema.table = leadFields c.lead fixedStart ++ others from hfields]
    at hfront hwithin
  have hpresent : ∀ f ∈ leadFields c.lead fixedStart,
      isNull (d.header.bitmap.of record) f.1.id = .ok false := by
    intro f hmem
    obtain ⟨hfirst, hlast⟩ := h.id_of_mem_lead (mem_of_mem_leadFields hmem)
    exact hf.isNull_eq hy.bitmap hy.room hfirst hlast
  obtain ⟨f, hstand, hfname, others, rfl⟩ := numbers_of_joined h hfront hpresent
    (fun f hf => hwithin f (List.mem_append_left _ hf)) hname
  refine ⟨f, agreement_of_read ?_ hstand.read⟩
  rw [List.append_assoc]
  refine ofRow_eq (h.names f) ?_
  rw [← List.append_assoc, List.cons_append, hfname]
  exact get?_of_new hcolumns

def systemColumns : FieldColumns where
  objectId := ⟨1, "ObjectId", .long, 4, 0, 0⟩
  kind := ⟨2, "Type", .short, 2, 0, 0⟩
  identifier := ⟨3, "Id", .long, 4, 0, 0⟩
  typeOrRoot := ⟨4, "TypeOrRoot", .long, 4, 0, 0⟩
  width := ⟨5, "SpaceUsage", .long, 4, 0, 0⟩
  flags := ⟨6, "Flags", .long, 4, 0, 0⟩
  codePageOrLocale := ⟨7, "CodePage", .long, 4, 0, 0⟩
  name := ⟨128, "Name", .text, 255, 0, 1252⟩

def systemTable : Table where
  name := "Objects"
  objectId := 2
  root := ⟨4⟩
  columns := (systemColumns.lead.map (·.1) ++ [systemColumns.name]).foldl Columns.insert .empty

theorem describe_systemTable : systemColumns.Describe systemTable where
  objectId := ⟨by decide, rfl, rfl, rfl⟩
  kind := ⟨by decide, rfl, rfl, rfl⟩
  identifier := ⟨by decide, rfl, rfl, rfl⟩
  typeOrRoot := ⟨by decide, rfl, rfl, rfl⟩
  width := ⟨by decide, rfl, rfl, rfl⟩
  flags := ⟨by decide, rfl, rfl, rfl⟩
  codePageOrLocale := ⟨by decide, rfl, rfl, rfl⟩
  name := by decide
  text := rfl
  codePage := rfl
  distinct := by decide

/-- A column with a negative type, in a record with a fixed and a variable value more. -/
def extendedRecord : Bytes :=
  [8, 129, 32, 0, 10, 0, 0, 0, 2, 0, 1, 0, 0, 0, 0xFE, 0xFF, 0xFF, 0xFF, 4, 0, 0, 0, 0, 0, 0, 0,
   0, 0, 0, 0, 1, 0, 2, 0, 3, 0, 0x49, 0x64, 9]

def extendedRow : Row where
  columns := [("ObjectId", .int 10), ("Type", .int 2), ("Id", .int 1), ("TypeOrRoot", .int (-2)),
    ("SpaceUsage", .int 4), ("Flags", .int 0), ("CodePage", .int 0), ("Name", .string "Id")]

theorem agreement_extendedRecord :
    systemColumns.Describe systemTable ∧ Filled extendedRecord ⟨8, 129, 32⟩ ∧
      decode ⟨systemTable, ⟨0x620, 0x11, 16384⟩, {}⟩ extendedRecord = .ok extendedRow ∧
      ∃ f, Agreement systemColumns extendedRecord extendedRow f := by
  have hfilled : Filled extendedRecord ⟨8, 129, 32⟩ := by
    refine ⟨by decide, by decide, by decide, by decide, fun raw hraw => ?_⟩
    obtain rfl := Except.ok.inj hraw
    decide
  have hdecode :
      decode ⟨systemTable, ⟨0x620, 0x11, 16384⟩, {}⟩ extendedRecord = .ok extendedRow := by
    decide +kernel
  exact ⟨describe_systemTable, hfilled, hdecode,
    agreement_of_decode describe_systemTable hfilled hdecode⟩

end Ese.Catalog
