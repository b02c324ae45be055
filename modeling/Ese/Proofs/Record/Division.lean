import Mathlib
import Ese.Proofs.Bytes.Read
import Ese.Proofs.Bytes.Span
import Ese.Proofs.Record.Warnings
/-!
How a record is divided. Its header and its two directories say where every value stands; with these
read, the spans of the values are known before a value is looked at. A record that decodes has its
row from the bytes in these spans, and the spans are all inside it.
-/

namespace Ese.Record

variable {α β : Type}

/-! Steps that add cells -/

/-- A step that succeeds adds cells to whatever row it finds, and `p` says which. -/
def Adds (d : Decode α) (p : α → List Cell → Prop) : Prop :=
  ∀ draft a draft', d draft = .ok a draft' →
    ∃ cells, draft'.row = addCells draft.row cells ∧ p a cells

namespace Adds

variable {d : Decode α} {f : α → Decode β} {p : α → List Cell → Prop} {q : β → List Cell → Prop}

theorem of_fills {a : α} {x : Except DecodeError (List Cell)} (h : Fills d a x)
    (hp : ∀ cells, x = .ok cells → p a cells) : Adds d p := by
  intro draft b draft' hd
  rcases x with e | cells
  · obtain ⟨_, hfails⟩ := h draft
    cases hd.symm.trans hfails
  · obtain ⟨_, hfills⟩ := h draft
    cases hd.symm.trans hfills
    exact ⟨cells, rfl, hp cells rfl⟩

theorem pure {a : α} (h : p a []) : Adds (pure a : Decode α) p := by
  rintro draft _ _ ⟨⟩
  exact ⟨[], (addCells_nil draft.row).symm, h⟩

theorem throw (e : DecodeError) : Adds (throw e : Decode α) p := by
  rintro draft _ _ ⟨⟩

theorem mono {p' : α → List Cell → Prop} (h : Adds d p) (hp : ∀ a cells, p a cells → p' a cells) :
    Adds d p' := by
  intro draft a draft' hd
  obtain ⟨cells, hrow, hcells⟩ := h draft a draft' hd
  exact ⟨cells, hrow, hp a cells hcells⟩

theorem read {x : Except DecodeError α} (hf : ∀ a, x = .ok a → Adds (f a) q) :
    Adds (liftM x >>= f) q := by
  intro draft b draft' hd
  obtain ⟨a, mid, hread, hrest⟩ := Decode.of_bind_ok hd
  obtain ⟨hx, rfl⟩ := Decode.of_lift_ok hread
  exact hf a hx mid b draft' hrest

theorem bind (h : Adds d p)
    (hf : ∀ a cells, p a cells → Adds (f a) fun b more => q b (cells ++ more)) :
    Adds (d >>= f) q := by
  intro draft b draft' hd
  obtain ⟨a, mid, hfirst, hrest⟩ := Decode.of_bind_ok hd
  obtain ⟨cells, hmid, hp⟩ := h draft a mid hfirst
  obtain ⟨more, hrow, hq⟩ := hf a cells hp mid b draft' hrest
  exact ⟨cells ++ more, by rw [hrow, hmid, addCells_addCells], hq⟩

end Adds

/-! The spans of the values -/

/-- The fixed values, as wide as their columns, the null ones as well. -/
def fixedFields (lastFixed : UInt8) : List Column → (offset : Nat) → List (Column × Span)
  | [], _ => []
  | c :: columns, offset =>
    if c.id > lastFixed.toUInt32 then []
    else match c.fixedWidth with
      | none => []
      | some width =>
        (c, ⟨offset, offset + width⟩) :: fixedFields lastFixed columns (offset + width)

def endsFrom (record : Bytes) (h : Header) :
    (remaining index : Nat) → Except DecodeError (List VariableEnd)
  | 0, _ => .ok []
  | remaining + 1, index => do
    let raw ← readU16 record (h.directoryStart + 2 * index) .variableDirectory
    let ends ← endsFrom record h remaining (index + 1)
    return VariableEnd.ofRaw raw :: ends

def endBehind : List VariableEnd → (previous : Nat) → Nat
  | [], previous => previous
  | e :: ends, _ => endBehind ends e.position

/-- The values that are not null by their indexes, with the first to stand at `start + previous`. -/
def valuesFrom (start : Nat) : List VariableEnd → (index previous : Nat) → List (Nat × Span)
  | [], _, _ => []
  | e :: ends, index, previous =>
    if e.isNull then valuesFrom start ends (index + 1) e.position
    else (index, ⟨start + previous, start + e.position⟩) ::
      valuesFrom start ends (index + 1) e.position

def taggedFields (record : Bytes) (start : Nat) : List Slot → List (Slot × Span)
  | [] => []
  | slot :: slots =>
    (slot, ⟨start + slot.offset, endOf record start slots⟩) :: taggedFields record start slots

/-! The cells of the values, by their spans -/

/-- A null value has no cell. -/
def fixedCells (record bitmap : Bytes) (field : Column × Span) :
    Except DecodeError (List Cell) := do
  if ← isNull bitmap field.1.id then return []
  else (plainCell field.1 (field.2.of record)).map ([·])

def valueCells (table : Table) (record : Bytes) (value : Nat × Span) :
    Except DecodeError (List Cell) :=
  match table.columns.byId? (variableId value.1) with
  | some c => (plainCell c (value.2.of record)).map ([·])
  | none => .ok []

def slotCells (schema : Schema) (record : Bytes) (field : Slot × Span) :
    Except DecodeError (List Cell) :=
  match schema.table.columns.byId? field.1.id.toUInt32 with
  | some c =>
    let (flags, content) := splitFlags field.1.hasFlags (field.2.of record)
    taggedCells schema.longValues c flags content
  | none => .ok []

theorem joined_of_ok {γ : Type} {f : γ → Except DecodeError (List Cell)} {x : γ} {fields : List γ}
    {cells more : List Cell} (hx : f x = .ok cells) (hmore : joined f fields = .ok more) :
    joined f (x :: fields) = .ok (cells ++ more) := by
  rw [joined_cons, hx, hmore]
  rfl

theorem of_mem_joined {γ : Type} {f : γ → Except DecodeError (List Cell)} {fields : List γ}
    {cells : List Cell} (h : joined f fields = .ok cells) {cell : Cell} (hcell : cell ∈ cells) :
    ∃ x ∈ fields, ∃ own, f x = .ok own ∧ cell ∈ own := by
  obtain ⟨lists, hlists, rfl⟩ := Outcome.of_map_ok h
  obtain ⟨own, hown, hmem⟩ := List.mem_flatten.mp hcell
  obtain ⟨x, hx, hfx⟩ := Outcome.of_mem_mapM hlists hown
  exact ⟨x, hx, own, hfx, hmem⟩

/-! The areas of a record -/

namespace Adds

variable {q : β → List Cell → Prop}

theorem fixedField {record bitmap : Bytes} {c : Column} {offset width : Nat} {next : Decode β}
    (hnext : ∀ cells, Span.Within ⟨offset, offset + width⟩ record →
      fixedCells record bitmap (c, ⟨offset, offset + width⟩) = .ok cells →
      Adds next fun b more => q b (cells ++ more)) :
    Adds (do
      let bytes ← slice record offset width .fixedColumn
      let null ← isNull bitmap c.id
      unless null do insertPlain c bytes
      next) q := by
  refine read fun bytes hslice => read fun null hnull => ?_
  rw [← Nat.add_sub_cancel_left (n := offset) (m := width)] at hslice
  obtain ⟨hwithin, rfl⟩ := Span.within_of_slice (Nat.le_add_right offset width) hslice
  cases null
  · have hplain : Adds (insertPlain c (Span.of ⟨offset, offset + width⟩ record)) fun _ cells =>
        fixedCells record bitmap (c, ⟨offset, offset + width⟩) = .ok cells := by
      rw [fixedCells, hnull]
      exact of_fills (Fills.insertPlain c _) fun _ => id
    exact bind hplain fun _ cells => hnext cells hwithin
  · have hnone : fixedCells record bitmap (c, ⟨offset, offset + width⟩) = .ok [] := by
      rw [fixedCells, hnull]
      rfl
    exact hnext [] hwithin hnone

theorem fixedFrom (record bitmap : Bytes) (lastFixed : UInt8) (columns : List Column)
    (offset : Nat) :
    Adds (decodeFixedFrom record bitmap lastFixed columns offset) fun _ cells =>
      joined (fixedCells record bitmap) (fixedFields lastFixed columns offset) = .ok cells ∧
        ∀ f ∈ fixedFields lastFixed columns offset, f.2.Within record := by
  induction columns generalizing offset with
  | nil => exact pure ⟨rfl, by simp [fixedFields]⟩
  | cons c columns ih =>
    rw [decodeFixedFrom, fixedFields]
    split
    · exact pure ⟨rfl, by simp⟩
    rcases c.fixedWidth with _ | width
    · exact throw _
    refine fixedField fun cells hwithin hcells => (ih _).mono fun _ more hrest => ?_
    obtain ⟨hmore, hall⟩ := hrest
    exact ⟨joined_of_ok hcells hmore, List.forall_mem_cons.mpr ⟨hwithin, hall⟩⟩

theorem variableValue (schema : Schema) {record : Bytes} {h : Header} {index previous last : Nat}
    {next : Decode β}
    (hnext : ∀ cells, Span.Within ⟨h.variableStart + previous, h.variableStart + last⟩ record →
      valueCells schema.table record
        (index, ⟨h.variableStart + previous, h.variableStart + last⟩) = .ok cells →
      Adds next fun b more => q b (cells ++ more)) :
    Adds (do decodeVariableValue schema record h index previous last; next) q := by
  refine bind (p := fun _ cells =>
    Span.Within ⟨h.variableStart + previous, h.variableStart + last⟩ record ∧
      valueCells schema.table record
        (index, ⟨h.variableStart + previous, h.variableStart + last⟩) = .ok cells) ?_
    fun _ cells ⟨hwithin, hcells⟩ => hnext cells hwithin hcells
  rw [decodeVariableValue]
  split
  · exact throw _
  rename_i hle
  refine read fun bytes hslice => ?_
  rw [← Nat.add_sub_add_left h.variableStart last previous] at hslice
  obtain ⟨hwithin, rfl⟩ := Span.within_of_slice (by omega) hslice
  unfold valueCells
  rcases schema.table.columns.byId? (variableId index) with _ | c
  · exact pure ⟨hwithin, rfl⟩
  · exact of_fills (Fills.insertPlain c _) fun cells hcells => ⟨hwithin, hcells⟩

theorem variableFrom (schema : Schema) (record : Bytes) (h : Header)
    (remaining index previous : Nat) :
    Adds (decodeVariableFrom schema record h remaining index previous) fun last cells =>
      ∃ ends, endsFrom record h remaining index = .ok ends ∧ last = endBehind ends previous ∧
        joined (valueCells schema.table record) (valuesFrom h.variableStart ends index previous) =
          .ok cells ∧
        ∀ v ∈ valuesFrom h.variableStart ends index previous, v.2.Within record := by
  induction remaining generalizing index previous with
  | zero => exact pure ⟨[], rfl, rfl, rfl, by simp [valuesFrom]⟩
  | succ remaining ih =>
    rw [decodeVariableFrom]
    refine read fun raw hraw => ?_
    have hcons : ∀ ends, endsFrom record h remaining (index + 1) = .ok ends →
        endsFrom record h (remaining + 1) index = .ok (.ofRaw raw :: ends) := by
      intro ends hends
      rw [endsFrom, hraw]
      change (endsFrom record h remaining (index + 1) >>= fun rest => .ok (_ :: rest)) = _
      rw [hends]
      rfl
    generalize VariableEnd.ofRaw raw = e at hcons ⊢
    dsimp only
    split
    · rename_i hnull
      refine (ih (index + 1) e.position).mono fun last cells hrest => ?_
      obtain ⟨ends, hends, hlast, hcells, hall⟩ := hrest
      refine ⟨e :: ends, hcons ends hends, hlast, ?_⟩
      rw [valuesFrom, if_pos hnull]
      exact ⟨hcells, hall⟩
    · rename_i hpresent
      refine variableValue schema fun cells hwithin hown => ?_
      refine (ih (index + 1) e.position).mono fun last more hrest => ?_
      obtain ⟨ends, hends, hlast, hmore, hall⟩ := hrest
      refine ⟨e :: ends, hcons ends hends, hlast, ?_⟩
      rw [valuesFrom, if_neg hpresent]
      exact ⟨joined_of_ok hown hmore, List.forall_mem_cons.mpr ⟨hwithin, hall⟩⟩

theorem slot (schema : Schema) (record : Bytes) (start last : Nat) (slot : Slot) :
    Adds (decodeSlot schema record start slot last) fun _ cells =>
      Span.Within ⟨start + slot.offset, last⟩ record ∧
        slotCells schema record (slot, ⟨start + slot.offset, last⟩) = .ok cells := by
  rw [decodeSlot]
  dsimp only
  split
  · exact throw _
  rename_i hle
  refine read fun bytes hslice => ?_
  obtain ⟨hwithin, rfl⟩ := Span.within_of_slice (by omega) hslice
  unfold slotCells
  rcases schema.table.columns.byId? slot.id.toUInt32 with _ | c
  · exact of_fills (Fills.remark _) fun cells hcells => ⟨hwithin, hcells⟩
  · exact of_fills (Fills.insertTagged schema c _ _) fun cells hcells => ⟨hwithin, hcells⟩

theorem slots (schema : Schema) (record : Bytes) (start : Nat) (slots : List Slot) :
    Adds (decodeSlots schema record start slots) fun _ cells =>
      joined (slotCells schema record) (taggedFields record start slots) = .ok cells ∧
        ∀ f ∈ taggedFields record start slots, f.2.Within record := by
  induction slots with
  | nil => exact pure ⟨rfl, by simp [taggedFields]⟩
  | cons slot slots ih =>
    rw [decodeSlots_cons, taggedFields]
    refine bind (Adds.slot schema record start _ slot) fun _ cells hslot => ?_
    obtain ⟨hwithin, hcells⟩ := hslot
    refine ih.mono fun _ more hrest => ?_
    obtain ⟨hmore, hall⟩ := hrest
    exact ⟨joined_of_ok hcells hmore, List.forall_mem_cons.mpr ⟨hwithin, hall⟩⟩

end Adds

/-! The whole record -/

namespace Header

def bitmap (h : Header) : Span := ⟨h.directoryStart - h.bitmapLength, h.directoryStart⟩

def directory (h : Header) : Span := ⟨h.directoryStart, h.variableStart⟩

theorem fixedStart_le_of_read {record : Bytes} {h : Header} (hread : read record = .ok h) :
    fixedStart ≤ record.length := by
  obtain ⟨_, -, hrest⟩ := Outcome.of_bind_ok hread
  obtain ⟨_, -, hrest⟩ := Outcome.of_bind_ok hrest
  obtain ⟨_, hoffset, -⟩ := Outcome.of_bind_ok hrest
  exact end_le_of_readU16 hoffset

theorem bitmap_of_readBitmap {record bytes : Bytes} {h : Header}
    (hread : readBitmap record h = .ok bytes) :
    h.bitmapLength ≤ h.directoryStart ∧ h.bitmap.Within record ∧ bytes = h.bitmap.of record := by
  unfold readBitmap at hread
  split at hread
  · cases hread
  rename_i hroom
  have hlength : h.directoryStart - (h.directoryStart - h.bitmapLength) = h.bitmapLength := by omega
  obtain ⟨hinside, rfl⟩ := slice_eq_ok_iff.mp hread
  refine ⟨Nat.le_of_not_lt hroom, ⟨Nat.sub_le .., ?_⟩, ?_⟩
  · change h.directoryStart ≤ record.length
    omega
  · rw [Span.of, bitmap, hlength]

end Header

/-- What the header and the directories of a record say. -/
structure Division where
  header : Header
  ends : List VariableEnd
  slots : List Slot
  deriving DecidableEq

namespace Division

variable (d : Division) (schema : Schema) (record : Bytes)

def start : Nat := d.header.variableStart + endBehind d.ends 0

def fixed (table : Table) : List (Column × Span) :=
  fixedFields d.header.lastFixed table.columns.fixed fixedStart

def values : List (Nat × Span) := valuesFrom d.header.variableStart d.ends 0 0

def tagged : List (Slot × Span) := taggedFields record d.start d.slots

def cells : Except DecodeError (List Cell) :=
  both (joined (fixedCells record (d.header.bitmap.of record)) (d.fixed schema.table))
    (both (joined (valueCells schema.table record) d.values)
      (joined (slotCells schema record) (d.tagged record)))

end Division

/-- The directories alone, without the values. -/
def divide (schema : Schema) (record : Bytes) : Except DecodeError Division := do
  let header ← Header.read record
  let ends ← endsFrom record header header.variableCount 0
  let slots ← readSlots schema.layout record (header.variableStart + endBehind ends 0)
  return { header, ends, slots }

/-- The row has its values from the spans of the division, and the record has the bytes for them. -/
structure Division.Yields (d : Division) (schema : Schema) (record : Bytes) (row : Row) : Prop where
  divided : divide schema record = .ok d
  cells : ∃ cells, d.cells schema record = .ok cells ∧ row = rowOf cells
  header : fixedStart ≤ record.length
  room : d.header.bitmapLength ≤ d.header.directoryStart
  bitmap : d.header.bitmap.Within record
  fixed : ∀ f ∈ d.fixed schema.table, f.2.Within record
  values : ∀ v ∈ d.values, v.2.Within record
  tagged : ∀ f ∈ d.tagged record, f.2.Within record

/-- A record that decodes is divided, and its row is read from the spans. -/
theorem yields_of_decode {schema : Schema} {record : Bytes} {row : Row}
    (h : decode schema record = .ok row) : ∃ d : Division, d.Yields schema record row := by
  obtain ⟨header, _, last, _, slots, _, hheader, hfixed, hlast, hslots, hvalues, rfl⟩ :=
    of_decode_ok h
  obtain ⟨bits, _, hread, hfixed⟩ := Decode.of_bind_ok hfixed
  obtain ⟨hbits, rfl⟩ := Decode.of_lift_ok hread
  obtain ⟨hroom, hbitmap, rfl⟩ := Header.bitmap_of_readBitmap hbits
  obtain ⟨front, hrow, hfront, hfixed⟩ := Adds.fixedFrom record _ _ _ _ _ _ _ hfixed
  obtain ⟨middle, hrow', ends, hends, rfl, hmiddle, hvarying⟩ :=
    Adds.variableFrom schema record header _ 0 0 _ _ _ hlast
  obtain ⟨back, hrow'', hback, htagged⟩ := Adds.slots schema record _ slots _ _ _ hvalues
  refine ⟨⟨header, ends, slots⟩, ?_, ⟨front ++ (middle ++ back), ?_, ?_⟩,
    Header.fixedStart_le_of_read hheader, hroom, hbitmap, hfixed, hvarying, htagged⟩
  · rw [divide, hheader]
    simp only [bind, Except.bind, hends, hslots]
    rfl
  · unfold Division.cells Division.fixed Division.values Division.tagged Division.start
    rw [hfront, hmiddle, hback]
    rfl
  · rw [hrow'', hrow', hrow, addCells_addCells, addCells_addCells]
    rfl

end Ese.Record
