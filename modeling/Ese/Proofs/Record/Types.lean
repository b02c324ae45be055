import Mathlib
import Ese.Proofs.Record.Division
/-!
The types of a row. What a row holds under the name of a column is of the kind that the type of the
column promises, or it is bytes and the next warning names the column. This is so for any record
that decodes, well-formed or not.
-/

namespace Ese

def ColumnType.range? : ColumnType → Option (Int × Int)
  | unsignedByte => some (0, 2 ^ 8 - 1)
  | short => some (-2 ^ 15, 2 ^ 15 - 1)
  | unsignedShort => some (0, 2 ^ 16 - 1)
  | long => some (-2 ^ 31, 2 ^ 31 - 1)
  | unsignedLong => some (0, 2 ^ 32 - 1)
  | longLong | currency | dateTime => some (-2 ^ 63, 2 ^ 63 - 1)
  | nil | bit | ieeeSingle | ieeeDouble | binary | text | longBinary | longText | slv | guid
  | other _ => none

/-- Values of the type have no other form than their bytes. -/
def ColumnType.isRaw : ColumnType → Bool
  | nil | binary | longBinary | slv | other _ => true
  | bit | unsignedByte | short | long | currency | ieeeSingle | ieeeDouble | dateTime | text
  | longText | unsignedLong | longLong | guid | unsignedShort => false

namespace Value

inductive Suits : ColumnType → Value → Prop where
  | bit (b : Bool) : Suits .bit (.bool b)
  | number {type : ColumnType} {least greatest : Int} {i : Int64} :
    type.range? = some (least, greatest) → least ≤ i.toInt → i.toInt ≤ greatest →
    Suits type (.int i)
  | single (bits : UInt64) : Suits .ieeeSingle (.float bits)
  | double (bits : UInt64) : Suits .ieeeDouble (.float bits)
  | guid (s : String) : Suits .guid (.string s)
  | text {type : ColumnType} (s : String) : type.isText → Suits type (.string s)
  | raw {type : ColumnType} (bytes : Bytes) : type.isRaw → Suits type (.bytes bytes)

theorem Suits.isRaw {type : ColumnType} {bytes : Bytes} (h : Suits type (.bytes bytes)) :
    type.isRaw := by
  cases h
  assumption

theorem suits_unsigned {type : ColumnType} {greatest : Int} {n : UInt64}
    (hrange : type.range? = some (0, greatest)) (hn : (n.toNat : Int) ≤ greatest)
    (hsmall : greatest < 2 ^ 63) : Suits type (.int n.toInt64) := by
  have hint : n.toInt64.toInt = n.toNat := by
    have hlt : 2 * n.toBitVec.toNat < 2 ^ 64 := by
      have hnat : n.toBitVec.toNat = n.toNat := rfl
      omega
    exact BitVec.toInt_eq_toNat_of_lt hlt
  exact .number hrange (by omega) (by omega)

/-- A value that a column decodes to suits its type. -/
theorem suits_decode {c : Column} {bytes : Bytes} {v : Value} (h : decode c bytes = .ok v) :
    v.Suits c.type := by
  unfold decode at h
  generalize c.type = type at h ⊢
  cases type with
  | nil | binary | longBinary | slv | other =>
    cases h
    exact .raw bytes rfl
  | text | longText =>
    cases h
    exact .text _ rfl
  | bit =>
    obtain ⟨n, -, rfl⟩ := Outcome.of_map_ok h
    exact .bit _
  | guid =>
    obtain ⟨raw, -, rfl⟩ := Outcome.of_map_ok h
    exact .guid _
  | ieeeSingle =>
    obtain ⟨n, -, rfl⟩ := Outcome.of_map_ok h
    exact .single _
  | ieeeDouble =>
    obtain ⟨n, -, rfl⟩ := Outcome.of_map_ok h
    exact .double n
  | unsignedByte =>
    obtain ⟨n, -, rfl⟩ := Outcome.of_map_ok h
    have hlt := n.toNat_lt
    exact suits_unsigned rfl (by rw [UInt8.toNat_toUInt64]; omega) (by decide)
  | unsignedShort =>
    obtain ⟨n, -, rfl⟩ := Outcome.of_map_ok h
    have hlt := n.toNat_lt
    exact suits_unsigned rfl (by rw [UInt16.toNat_toUInt64]; omega) (by decide)
  | unsignedLong =>
    obtain ⟨n, -, rfl⟩ := Outcome.of_map_ok h
    have hlt := n.toNat_lt
    exact suits_unsigned rfl (by rw [UInt32.toNat_toUInt64]; omega) (by decide)
  | short =>
    obtain ⟨n, -, rfl⟩ := Outcome.of_map_ok h
    have hint : n.toInt16.toInt64.toInt = n.toInt16.toInt := Int16.toInt_toInt64 _
    exact .number rfl (hint ▸ Int16.le_toInt _) (hint ▸ Int.le_sub_one_of_lt (Int16.toInt_lt _))
  | long =>
    obtain ⟨n, -, rfl⟩ := Outcome.of_map_ok h
    have hint : n.toInt32.toInt64.toInt = n.toInt32.toInt := Int32.toInt_toInt64 _
    exact .number rfl (hint ▸ Int32.le_toInt _) (hint ▸ Int.le_sub_one_of_lt (Int32.toInt_lt _))
  | longLong | currency | dateTime =>
    obtain ⟨n, -, rfl⟩ := Outcome.of_map_ok h
    exact .number rfl (Int64.le_toInt _) (Int.le_sub_one_of_lt (Int64.toInt_lt _))

end Value

namespace Record

/-- The cell belongs to a column. Its value suits the type of the column, or it is bytes and there
is a warning that names the column. -/
def Cell.SuitsColumn (cell : Cell) (c : Column) : Prop :=
  cell.column = c.name ∧
    match cell.warning with
    | none => cell.value.Suits c.type
    | some w => w.column = c.name ∧ ∃ bytes, cell.value = .bytes bytes

section

variable {c : Column} {cell : Cell} {bytes : Bytes} {compressed : Bool} {longValues : LongValues}

theorem suits_plainCell (h : plainCell c bytes = .ok cell) : cell.SuitsColumn c := by
  obtain ⟨v, hv, rfl⟩ := Outcome.of_map_ok h
  exact ⟨rfl, Value.suits_decode hv⟩

theorem suits_contentCell (h : contentCell c compressed bytes = .ok cell) :
    cell.SuitsColumn c := by
  unfold contentCell at h
  split at h
  · rename_i htext
    have htext := (Bool.and_eq_true_iff.mp htext).2
    split at h
    · cases h
      exact ⟨rfl, .text _ htext⟩
    · cases h
      exact ⟨rfl, rfl, bytes, rfl⟩
  · exact suits_plainCell h

theorem suits_longValueCell (h : longValueCell longValues c compressed bytes = .ok cell) :
    cell.SuitsColumn c := by
  obtain ⟨lid, -, h⟩ := Outcome.of_bind_ok h
  split at h
  · exact suits_contentCell h
  · cases h
    exact ⟨rfl, rfl, bytes, rfl⟩

theorem suits_taggedCells {flags : ValueFlags} {cells : List Cell}
    (h : taggedCells longValues c flags bytes = .ok cells) (hcell : cell ∈ cells) :
    cell.SuitsColumn c := by
  unfold taggedCells at h
  split at h
  · cases h
    cases hcell
  split at h
  · cases h
    obtain rfl := List.mem_singleton.mp hcell
    exact ⟨rfl, rfl, bytes, rfl⟩
  split at h
  · obtain ⟨_, hvalue, rfl⟩ := Outcome.of_map_ok h
    exact List.mem_singleton.mp hcell ▸ suits_longValueCell hvalue
  · obtain ⟨_, hvalue, rfl⟩ := Outcome.of_map_ok h
    exact List.mem_singleton.mp hcell ▸ suits_contentCell hvalue

end

section

variable {schema : Schema} {record : Bytes} {cell : Cell} {own : List Cell}

theorem suits_fixedCells {bitmap : Bytes} {f : Column × Span}
    (h : fixedCells record bitmap f = .ok own) (hcell : cell ∈ own) : cell.SuitsColumn f.1 := by
  obtain ⟨null, -, h⟩ := Outcome.of_bind_ok h
  split at h
  · cases h
    cases hcell
  · obtain ⟨_, hvalue, rfl⟩ := Outcome.of_map_ok h
    exact List.mem_singleton.mp hcell ▸ suits_plainCell hvalue

theorem suits_valueCells {v : Nat × Span} (h : valueCells schema.table record v = .ok own)
    (hcell : cell ∈ own) : ∃ c ∈ schema.table.columns.toList, cell.SuitsColumn c := by
  unfold valueCells at h
  split at h
  · rename_i c hc
    obtain ⟨_, hvalue, rfl⟩ := Outcome.of_map_ok h
    exact ⟨c, (Columns.byId?_eq_some_iff.mp hc).1,
      List.mem_singleton.mp hcell ▸ suits_plainCell hvalue⟩
  · cases h
    cases hcell

theorem suits_slotCells {f : Slot × Span} (h : slotCells schema record f = .ok own)
    (hcell : cell ∈ own) : ∃ c ∈ schema.table.columns.toList, cell.SuitsColumn c := by
  unfold slotCells at h
  split at h
  · rename_i c hc
    exact ⟨c, (Columns.byId?_eq_some_iff.mp hc).1, suits_taggedCells h hcell⟩
  · cases h
    cases hcell

/-- The fixed values are those of columns of the table. -/
theorem mem_of_mem_fixedFields {lastFixed : UInt8} {columns : List Column} {offset : Nat}
    {f : Column × Span} (h : f ∈ fixedFields lastFixed columns offset) : f.1 ∈ columns := by
  induction columns generalizing offset with
  | nil => cases h
  | cons c columns ih =>
    rw [fixedFields] at h
    split at h
    · cases h
    split at h
    · cases h
    · rcases List.mem_cons.mp h with rfl | h
      · exact List.mem_cons_self
      · exact List.mem_cons_of_mem c (ih h)

theorem Division.suits_cells {d : Division} {cells : List Cell}
    (h : d.cells schema record = .ok cells) (hcell : cell ∈ cells) :
    ∃ c ∈ schema.table.columns.toList, cell.SuitsColumn c := by
  obtain ⟨front, hfront, h⟩ := Outcome.of_bind_ok h
  obtain ⟨rest, hrest, h⟩ := Outcome.of_bind_ok h
  cases h
  obtain ⟨middle, hmiddle, h⟩ := Outcome.of_bind_ok hrest
  obtain ⟨back, hback, h⟩ := Outcome.of_bind_ok h
  cases h
  rcases List.mem_append.mp hcell with hcell | hcell
  · obtain ⟨f, hf, own, hown, hmem⟩ := of_mem_joined hfront hcell
    exact ⟨f.1, (List.mem_filter.mp (mem_of_mem_fixedFields hf)).1, suits_fixedCells hown hmem⟩
  rcases List.mem_append.mp hcell with hcell | hcell
  · obtain ⟨v, -, own, hown, hmem⟩ := of_mem_joined hmiddle hcell
    exact suits_valueCells hown hmem
  · obtain ⟨f, -, own, hown, hmem⟩ := of_mem_joined hback hcell
    exact suits_slotCells hown hmem

end

/-! Values and warnings side by side -/

/-- The values of a row with its warnings. A value without a warning suits its column; each warning,
in their order, has a value of the column that it names, which is bytes. -/
inductive Matched (table : Table) : List (String × Value) → List Warning → Prop where
  | nil : Matched table [] []
  | plain {c : Column} {v : Value} {columns : List (String × Value)} {warnings : List Warning} :
    c ∈ table.columns.toList → v.Suits c.type → Matched table columns warnings →
    Matched table ((c.name, v) :: columns) warnings
  | warned {c : Column} {w : Warning} {bytes : Bytes} {columns : List (String × Value)}
    {warnings : List Warning} :
    c ∈ table.columns.toList → w.column = c.name → Matched table columns warnings →
    Matched table ((c.name, .bytes bytes) :: columns) (w :: warnings)

theorem matched_rowOf {table : Table} {cells : List Cell}
    (h : ∀ cell ∈ cells, ∃ c ∈ table.columns.toList, cell.SuitsColumn c) :
    Matched table (rowOf cells).columns (rowOf cells).warnings := by
  induction cells with
  | nil => exact .nil
  | cons cell cells ih =>
    have hrest := ih fun x hx => h x (List.mem_cons_of_mem cell hx)
    obtain ⟨c, hc, hname, hsuits⟩ := h cell List.mem_cons_self
    obtain ⟨name, v, warning⟩ := cell
    obtain rfl : name = c.name := hname
    rcases warning with _ | w
    · exact .plain hc hsuits hrest
    · obtain ⟨hw, bytes, rfl⟩ := hsuits
      exact .warned hc hw hrest

/-- Bytes are the value of a column that has no other form, or there is a warning that names it. -/
theorem Matched.of_bytes {table : Table} {columns : List (String × Value)} {warnings : List Warning}
    (h : Matched table columns warnings) {name : String} {bytes : Bytes}
    (hmem : (name, .bytes bytes) ∈ columns) :
    (∃ c ∈ table.columns.toList, c.name = name ∧ c.type.isRaw) ∨
      ∃ w ∈ warnings, w.column = name := by
  induction h with
  | nil => cases hmem
  | @plain c v columns warnings hc hv _ ih =>
    rcases List.mem_cons.mp hmem with heq | hmem
    · obtain ⟨rfl, rfl⟩ := Prod.mk.inj heq
      exact .inl ⟨c, hc, rfl, hv.isRaw⟩
    · exact ih hmem
  | @warned c w _ columns warnings hc hw _ ih =>
    rcases List.mem_cons.mp hmem with heq | hmem
    · exact .inr ⟨w, List.mem_cons_self, hw.trans (Prod.mk.inj heq).1.symm⟩
    · exact (ih hmem).imp_right fun ⟨w', hw', hcolumn⟩ => ⟨w', List.mem_cons_of_mem w hw', hcolumn⟩

/-- A row has the types of its columns, but for the values that it warns of. -/
theorem typed_decode {schema : Schema} {record : Bytes} {row : Row}
    (h : decode schema record = .ok row) :
    Matched schema.table row.columns row.warnings ∧
      ∀ name bytes, (name, .bytes bytes) ∈ row.columns →
        (∃ c ∈ schema.table.columns.toList, c.name = name ∧ c.type.isRaw) ∨
          ∃ w ∈ row.warnings, w.column = name := by
  obtain ⟨d, hd⟩ := yields_of_decode h
  obtain ⟨cells, hcells, rfl⟩ := hd.cells
  have hmatched := matched_rowOf fun cell => Division.suits_cells hcells
  exact ⟨hmatched, fun _ _ => hmatched.of_bytes⟩

def mixedRow : Row where
  columns := [("Count", .int 7), ("Name", .string "a"), ("Body", .string "b"),
    ("Body", .bytes [1, 2])]
  warnings := [.multiValue "Body"]

theorem typed_mixed :
    decode ⟨Build.Record.mixedTable, documentLayout, {}⟩
        (Build.Record.mixed.encode documentLayout) = .ok mixedRow ∧
      Matched Build.Record.mixedTable mixedRow.columns mixedRow.warnings ∧
      ∀ name bytes, (name, .bytes bytes) ∈ mixedRow.columns →
        (∃ c ∈ Build.Record.mixedTable.columns.toList, c.name = name ∧ c.type.isRaw) ∨
          ∃ w ∈ mixedRow.warnings, w.column = name := by
  have hrow : decode ⟨Build.Record.mixedTable, documentLayout, {}⟩
      (Build.Record.mixed.encode documentLayout) = .ok mixedRow := by
    decide +kernel
  exact ⟨hrow, typed_decode hrow⟩

end Record

end Ese
