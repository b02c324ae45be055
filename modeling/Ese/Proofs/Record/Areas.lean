import Mathlib
import Ese.Proofs.Bytes.Field
import Ese.Proofs.Bytes.Segment
import Ese.Proofs.Record.Fills
import Ese.Proofs.Schema.Columns
/-!
The areas of a record, one at a time. What is written for a list of fixed, variable or tagged fields
is a segment; reading it fills in the cells of the fields, by induction on them with the running
offset. The null bitmap is the exception: it is read bit by bit, and each bit is that of its field.
-/

namespace Ese.Build.Record

open Ese.Record

/-! The null bitmap -/

@[simp] theorem length_bitmap (n : Nat) (bits : List Bool) : (bitmap n bits).length = n := by
  induction n generalizing bits with
  | zero => rfl
  | succ n ih => simp [bitmap, ih]

theorem testBit_bitmapByte (bits : List Bool) {k : Nat} (hk : k < 8) :
    (bitmapByte bits).toNat.testBit k = bits.getD k false := by
  induction bits generalizing k with
  | nil => simp [bitmapByte]
  | cons b bits ih =>
    have hb : (if b then (1 : UInt8) else 0).toNat = b.toNat := by cases b <;> rfl
    have hs : (bitmapByte bits <<< 1).toNat = (bitmapByte bits).toNat <<< 1 % 2 ^ 8 :=
      UInt8.toNat_shiftLeft ..
    rw [bitmapByte, UInt8.toNat_or, hb, hs, Nat.testBit_or, Nat.testBit_mod_two_pow,
      Nat.testBit_shiftLeft]
    cases k with
    | zero => cases b <;> simp
    | succ k =>
      have hz : b.toNat.testBit (k + 1) = false :=
        Nat.testBit_lt_two_pow ((Bool.toNat_lt b).trans_le (Nat.le_self_pow (by omega) 2))
      simp [hz, hk, ih (k := k) (by omega)]

theorem getElem?_bitmap {n j : Nat} (bits : List Bool) (hj : j < n) :
    (bitmap n bits)[j]? = some (bitmapByte ((bits.drop (8 * j)).take 8)) := by
  induction n generalizing bits j with
  | zero => omega
  | succ n ih =>
    cases j with
    | zero => simp [bitmap]
    | succ j =>
      rw [bitmap, List.getElem?_cons_succ, ih (bits.drop 8) (by omega), List.drop_drop,
        show 8 + 8 * j = 8 * (j + 1) by omega]

theorem bit_eq_testBit (byte : UInt8) {k : Nat} (hk : k < 8) :
    ((byte >>> UInt8.ofNat k) &&& 1 != 0) = byte.toNat.testBit k := by
  rw [Bool.eq_iff_iff, bne_iff_ne, ne_eq, ← UInt8.toNat_inj, UInt8.toNat_and,
    UInt8.toNat_shiftRight, UInt8.toNat_ofNat', Nat.testBit_eq_decide_div_mod_eq]
  rw [Nat.mod_eq_of_lt (show k < 2 ^ 8 by omega), Nat.mod_eq_of_lt hk, Nat.shiftRight_eq_div_pow]
  change ¬ _ &&& 1 = 0 ↔ _
  rw [Nat.and_one_is_mod]
  simp

theorem isNull_bitmap (bits : List Bool) {n i : Nat} {id : UInt32} (hid : id.toNat = i + 1)
    (hi : i < bits.length) (hn : bits.length ≤ 8 * n) :
    isNull (bitmap n bits) id = .ok bits[i] := by
  have hb := getElem?_bitmap bits (show i / 8 < n by omega)
  have hk : i % 8 < 8 := Nat.mod_lt _ (by omega)
  unfold isNull
  rw [hid]
  simp only [hb, bit_eq_testBit _ hk, testBit_bitmapByte _ hk]
  congr 1
  rw [List.getD_eq_getElem?_getD, List.getElem?_take_of_lt hk, List.getElem?_drop,
    Nat.div_add_mod, List.getElem?_eq_getElem hi]
  rfl

/-! The fixed columns -/

/-- The fixed values that are not null when the first of them has the id `id`. -/
def presentFixedFrom (id : Nat) (fields : List FixedField) : List (UInt32 × Bytes) :=
  (fields.zipIdx id).filterMap fun (f, id) => if f.isNull then none else some (.ofNat id, f.data)

theorem presentFixedFrom_cons (id : Nat) (f : FixedField) (fields : List FixedField) :
    presentFixedFrom id (f :: fields) =
      if f.isNull then presentFixedFrom (id + 1) fields
      else (.ofNat id, f.data) :: presentFixedFrom (id + 1) fields := by
  simp only [presentFixedFrom, List.zipIdx_cons, List.filterMap_cons]
  cases f.isNull <;> rfl

/-- The columns that are left of a sorted list: all from the id `id` on. -/
structure ColumnsFrom (table : Table) (id : Nat) (columns : List Column) : Prop where
  sorted : columns.Pairwise fun a b => a.id < b.id
  from_id : ∀ c ∈ columns, id ≤ c.id.toNat
  mem : ∀ c ∈ columns, c ∈ table.columns.toList

theorem ColumnsFrom.tail {table : Table} {id : Nat} {c : Column} {columns : List Column}
    (h : ColumnsFrom table id (c :: columns)) : ColumnsFrom table (id + 1) columns where
  sorted := (List.pairwise_cons.mp h.sorted).2
  from_id d hd := by
    have hc := h.from_id c List.mem_cons_self
    have hlt := UInt32.lt_iff_toNat_lt.mp ((List.pairwise_cons.mp h.sorted).1 d hd)
    omega
  mem d hd := h.mem d (List.mem_cons_of_mem c hd)

/-- The column of the least id stands at the head. -/
theorem ColumnsFrom.exists_cons {table : Table} {id : Nat} {columns : List Column}
    (h : ColumnsFrom table id columns) {c : Column} (hc : c ∈ columns) (hid : c.id.toNat = id) :
    ∃ rest, columns = c :: rest := by
  cases columns with
  | nil => exact absurd hc List.not_mem_nil
  | cons d rest =>
    rcases List.mem_cons.mp hc with rfl | hc
    · exact ⟨rest, rfl⟩
    · have hd := h.from_id d List.mem_cons_self
      have hlt := UInt32.lt_iff_toNat_lt.mp ((List.pairwise_cons.mp h.sorted).1 c hc)
      omega

theorem fills_fixedFrom {table : Table} {record bits : Bytes} {lastFixed : UInt8} :
    ∀ (fields : List FixedField) (columns : List Column) (id offset : Nat),
      ColumnsFrom table id columns →
      (∀ i (h : i < fields.length), ∃ c ∈ columns, c.id.toNat = id + i ∧
        c.fixedWidth = some fields[i].data.length) →
      (∀ i (h : i < fields.length) (cid : UInt32), cid.toNat = id + i →
        isNull bits cid = .ok fields[i].isNull) →
      lastFixed.toNat + 1 = id + fields.length →
      Segment record offset (fields.flatMap (·.data)) →
      Fills (decodeFixedFrom record bits lastFixed columns offset) ()
        (joined (plainCells table) (presentFixedFrom id fields)) := by
  intro fields
  induction fields with
  | nil =>
    intro columns id offset hcols _ _ hlast _
    change Fills _ () (.ok [])
    cases columns with
    | nil => exact Fills.pure ()
    | cons c rest =>
      have hc := hcols.from_id c List.mem_cons_self
      have hgt : c.id > lastFixed.toUInt32 := by
        rw [gt_iff_lt, UInt32.lt_iff_toNat_lt, UInt8.toNat_toUInt32]
        simp only [List.length_nil] at hlast
        omega
      rw [decodeFixedFrom, if_pos hgt]
      exact Fills.pure ()
  | cons f fields ih =>
    intro columns id offset hcols hwidth hnull hlast hseg
    obtain ⟨c, hmem, hid, hw⟩ := hwidth 0 (by simp)
    obtain ⟨rest, rfl⟩ := hcols.exists_cons hmem (by omega)
    simp only [List.length_cons] at hlast
    have hle : ¬ c.id > lastFixed.toUInt32 := by
      rw [gt_iff_lt, UInt32.lt_iff_toNat_lt, UInt8.toNat_toUInt32]
      omega
    rw [List.flatMap_cons] at hseg
    -- the fields behind `f` belong to the columns behind `c`
    have htail := ih rest (id + 1) (offset + f.data.length) hcols.tail
      (fun i h => by
        obtain ⟨d, hd, hdid, hdw⟩ := hwidth (i + 1) (by simpa using h)
        rcases List.mem_cons.mp hd with rfl | hd
        · omega
        · exact ⟨d, hd, by omega, hdw⟩)
      (fun i h cid hcid => hnull (i + 1) (by simpa using h) cid (by omega))
      (by omega) hseg.right
    rw [decodeFixedFrom, if_neg hle, hw]
    apply Fills.read (hseg.left.slice_eq .fixedColumn rfl)
    apply Fills.read (hnull 0 (by simp) c.id hid)
    rw [presentFixedFrom_cons]
    simp only [List.getElem_cons_zero]
    split
    · exact htail
    · have hby : table.columns.byId? (.ofNat id) = some c :=
        Columns.byId?_eq_some_iff.mpr
          ⟨hcols.mem c List.mem_cons_self,
            by rw [show id = c.id.toNat from hid.symm, UInt32.ofNat_toNat]⟩
      rw [joined_cons, plainCells, hby]
      exact Fills.bind (Fills.insertPlain c f.data) htail

/-! The variable columns -/

theorem ofRaw_ofNat {n : Nat} (hn : n < 0x8000) : VariableEnd.ofRaw (.ofNat n) = ⟨false, n⟩ := by
  have ht := Field.toNat_ofNat (show n < 0x10000 by omega)
  rw [VariableEnd.ofRaw, Field.bit15, Field.low15, ht]
  simp only [VariableEnd.mk.injEq, decide_eq_false_iff_not]
  omega

theorem ofRaw_marked {n : Nat} (hn : n < 0x8000) :
    VariableEnd.ofRaw (.ofNat n ||| 0x8000) = ⟨true, n⟩ := by
  rw [VariableEnd.ofRaw, Field.bit15, Field.low15, Field.mark15 hn]
  simp only [VariableEnd.mk.injEq, decide_eq_true_eq]
  omega

def presentVariableFrom (id : Nat) (fields : List (Option Bytes)) : List (UInt32 × Bytes) :=
  (fields.zipIdx id).filterMap fun (v, id) => v.map (UInt32.ofNat id, ·)

theorem fills_variableValue (schema : Schema) {record : Bytes} {h : Header} {index previous : Nat}
    {data : Bytes} (rest : List (UInt32 × Bytes)) {next : Decode Nat} {answer : Nat}
    (hseg : Segment record (h.variableStart + previous) data)
    (hnext : Fills next answer (joined (plainCells schema.table) rest)) :
    Fills (do decodeVariableValue schema record h index previous (previous + data.length); next)
      answer (joined (plainCells schema.table) ((variableId index, data) :: rest)) := by
  have hle : ¬ previous + data.length < previous := by omega
  have hslice := hseg.slice_eq .variableColumn
    (show previous + data.length - previous = data.length by omega)
  rw [decodeVariableValue, if_neg hle, hslice]
  rw [joined_cons, plainCells]
  refine Fills.bind (a := ()) ?_ hnext
  cases schema.table.columns.byId? (variableId index) with
  | some c => exact Fills.read rfl (Fills.insertPlain c data)
  | none => exact Fills.read rfl (Fills.pure ())

theorem fills_variableFrom (schema : Schema) (record : Bytes) (h : Header) :
    ∀ (fields : List (Option Bytes)) (index previous : Nat),
      Segment record (h.directoryStart + 2 * index) (variableDirectory fields previous) →
      Segment record (h.variableStart + previous) (variableData fields) →
      previous + (variableData fields).length ≤ 0x7FFF →
      Fills (decodeVariableFrom schema record h fields.length index previous)
        (previous + (variableData fields).length)
        (joined (plainCells schema.table) (presentVariableFrom (128 + index) fields)) := by
  intro fields
  induction fields with
  | nil => intro index previous _ _ _; exact Fills.pure previous
  | cons v fields ih =>
    intro index previous hdir hdata hroom
    rw [List.length_cons, decodeVariableFrom]
    cases v with
    | some data =>
      have hlen : (variableData (some data :: fields)).length =
          data.length + (variableData fields).length := by simp [variableData]
      rw [hlen] at hroom ⊢
      have hnext := ih (index + 1) (previous + data.length)
        (hdir.after _ (by simp; omega)) (hdata.after _ (by simp; omega)) (by omega)
      apply Fills.read (hdir.left.readU16_eq .variableDirectory)
      rw [ofRaw_ofNat (by omega), ← Nat.add_assoc]
      exact fills_variableValue schema _ hdata.left hnext
    | none =>
      have hlen : (variableData (none :: fields)).length = (variableData fields).length := by
        simp [variableData]
      rw [hlen] at hroom ⊢
      have hnext := ih (index + 1) previous (hdir.after _ (by simp; omega)) hdata hroom
      apply Fills.read (hdir.left.readU16_eq .variableDirectory)
      rw [UInt16.ofNat_toNat, ofRaw_marked (by omega)]
      exact hnext

/-! The tagged columns -/

/-- The directory that is written for tagged values, the first of which starts at `offset`. -/
def slotsFrom (layout : Layout) : List TaggedField → (offset : Nat) → List Slot
  | [], _ => []
  | t :: rest, offset =>
    ⟨t.id, offset, hasFlagByte layout t⟩ ::
      slotsFrom layout rest (offset + (taggedValue layout t).length)

def maxTaggedOffset (layout : Layout) : Nat := if layout.hasLargeTags then 0x7FFF else 0x1FFF

theorem ofRaw_taggedField (layout : Layout) (t : TaggedField) {offset : Nat}
    (ho : offset ≤ maxTaggedOffset layout) :
    Slot.ofRaw layout t.id (taggedField layout t offset) =
      ⟨t.id, offset, hasFlagByte layout t⟩ := by
  unfold maxTaggedOffset at ho
  unfold Slot.ofRaw taggedField hasFlagByte
  cases hl : layout.hasLargeTags with
  | true =>
    rw [hl, if_pos rfl] at ho
    have ht := Field.toNat_ofNat (show offset < 0x10000 by omega)
    change Slot.mk t.id (UInt16.ofNat offset &&& 0x7FFF).toNat true = ⟨t.id, offset, true⟩
    rw [Field.low15, ht, Nat.mod_eq_of_lt (by omega)]
  | false =>
    rw [hl, if_neg Bool.false_ne_true] at ho
    have ht := Field.toNat_ofNat (show offset < 0x10000 by omega)
    cases hf : t.flags != 0 with
    | false =>
      change Slot.mk t.id (UInt16.ofNat offset &&& 0x1FFF).toNat
        (UInt16.ofNat offset &&& 0x4000 != 0) = ⟨t.id, offset, false⟩
      rw [Field.low13, Field.bit14, ht, Nat.mod_eq_of_lt (by omega), Nat.div_eq_of_lt (by omega)]
      rfl
    | true =>
      change Slot.mk t.id ((UInt16.ofNat offset ||| 0x4000) &&& 0x1FFF).toNat
        ((UInt16.ofNat offset ||| 0x4000) &&& 0x4000 != 0) = ⟨t.id, offset, true⟩
      rw [Field.low13, Field.bit14, Field.mark14 (by omega)]
      simp only [Slot.mk.injEq, decide_eq_true_eq, true_and]
      omega

theorem splitFlags_taggedValue (layout : Layout) (t : TaggedField) :
    splitFlags (hasFlagByte layout t) (taggedValue layout t) = (⟨t.flags⟩, t.data) := by
  unfold taggedValue
  cases h : hasFlagByte layout t with
  | true => simp [splitFlags]
  | false =>
    have hf : t.flags = 0 := by
      simp only [hasFlagByte, Bool.or_eq_false_iff, bne_eq_false_iff_eq] at h
      exact h.2
    simp [splitFlags, hf]

theorem length_taggedDirectory (layout : Layout) (fields : List TaggedField) (offset : Nat) :
    (taggedDirectory layout fields offset).length = 4 * fields.length := by
  induction fields generalizing offset with
  | nil => rfl
  | cons t fields ih =>
    simp [taggedDirectory, ih]
    omega

theorem readSlotsFrom_directory {layout : Layout} {record : Bytes} (start limit : Nat) :
    ∀ (fields : List TaggedField) (position offset : Nat),
      Segment record position (taggedDirectory layout fields offset) →
      (∀ s ∈ slotsFrom layout fields offset, s.offset ≤ maxTaggedOffset layout) →
      position + 4 * fields.length = limit → limit ≤ start + offset → limit ≤ record.length →
      readSlotsFrom layout record start position (some limit) =
        .ok (slotsFrom layout fields offset) := by
  intro fields
  induction fields with
  | nil =>
    intro position offset _ _ hpos _ _
    rw [readSlotsFrom, if_neg]
    · rfl
    · simp at hpos ⊢
      omega
  | cons t fields ih =>
    intro position offset hseg hroom hpos hstart hlen
    simp only [List.length_cons] at hpos
    have hread := ofRaw_taggedField layout t (hroom _ List.mem_cons_self)
    rw [taggedDirectory, List.append_assoc] at hseg
    have hrest := ih (position + 4) (offset + (taggedValue layout t).length)
      (hseg.right.after _ (by simp)) (fun s hs => hroom s (List.mem_cons_of_mem _ hs))
      (by omega) (by omega) hlen
    rw [readSlotsFrom, if_pos ⟨by omega, by simp; omega⟩, hseg.left.readU16_eq,
      (hseg.after _ (by simp)).left.readU16_eq, UInt16.ofNat_toNat, UInt16.ofNat_toNat]
    have hmin : earlier (some limit) (start + offset) = limit := Nat.min_eq_left hstart
    simp only [bind, Except.bind, hread, hmin, hrest]
    rfl

theorem readSlots_directory {layout : Layout} {record : Bytes} {start : Nat}
    {fields : List TaggedField}
    (hseg : Segment record start (taggedDirectory layout fields (4 * fields.length)))
    (hroom : ∀ s ∈ slotsFrom layout fields (4 * fields.length), s.offset ≤ maxTaggedOffset layout)
    (hend : fields = [] → start = record.length) :
    readSlots layout record start = .ok (slotsFrom layout fields (4 * fields.length)) := by
  unfold readSlots
  rw [readSlotsFrom]
  cases fields with
  | nil =>
    rw [if_neg]
    · rfl
    · have := hend rfl
      omega
  | cons t fields =>
    generalize ho : 4 * (t :: fields).length = offset at *
    simp only [List.length_cons] at ho
    have hlen := hseg.end_le
    have hread := ofRaw_taggedField layout t (hroom _ List.mem_cons_self)
    rw [length_taggedDirectory, List.length_cons] at hlen
    rw [taggedDirectory, List.append_assoc] at hseg
    have hrest := readSlotsFrom_directory start (start + offset) fields (start + 4)
      (offset + (taggedValue layout t).length) (hseg.right.after _ (by simp))
      (fun s hs => hroom s (List.mem_cons_of_mem _ hs)) (by omega) (by omega) (by omega)
    rw [if_pos ⟨by omega, rfl⟩, hseg.left.readU16_eq, (hseg.after _ (by simp)).left.readU16_eq,
      UInt16.ofNat_toNat, UInt16.ofNat_toNat]
    simp only [bind, Except.bind, hread, earlier, hrest]
    rfl

theorem fills_slot (schema : Schema) {record : Bytes} {start offset : Nat} (t : TaggedField)
    (hseg : Segment record (start + offset) (taggedValue schema.layout t)) :
    Fills (decodeSlot schema record start ⟨t.id, offset, hasFlagByte schema.layout t⟩
        (start + (offset + (taggedValue schema.layout t).length))) ()
      (fieldCells schema.table schema.longValues t) := by
  have hslice := hseg.slice_eq .taggedColumn
    (show start + (offset + (taggedValue schema.layout t).length) - (start + offset) =
      (taggedValue schema.layout t).length by omega)
  rw [decodeSlot, if_neg (by simp only; omega), hslice]
  apply Fills.read rfl
  unfold fieldCells
  cases schema.table.columns.byId? t.id.toUInt32 with
  | none => exact Fills.remark _
  | some c =>
    simp only [splitFlags_taggedValue]
    exact Fills.insertTagged schema c ⟨t.flags⟩ t.data

theorem fills_slots (schema : Schema) {record : Bytes} {start : Nat} :
    ∀ (fields : List TaggedField) (offset : Nat),
      Segment record (start + offset) (fields.flatMap (taggedValue schema.layout)) →
      start + offset + (fields.flatMap (taggedValue schema.layout)).length = record.length →
      Fills (decodeSlots schema record start (slotsFrom schema.layout fields offset)) ()
        (joined (fieldCells schema.table schema.longValues) fields) := by
  intro fields
  induction fields with
  | nil => intro offset _ _; exact Fills.pure ()
  | cons t fields ih =>
    intro offset hseg hlen
    rw [List.flatMap_cons] at hseg hlen
    rw [List.length_append] at hlen
    have hslot := fills_slot schema t hseg.left
    have hrest := ih (offset + (taggedValue schema.layout t).length)
      (hseg.after _ (by omega)) (by omega)
    rw [joined_cons]
    cases fields with
    | nil =>
      -- the last value ends with the record
      have hlast : record.length = start + (offset + (taggedValue schema.layout t).length) := by
        simp at hlen
        omega
      rw [slotsFrom, slotsFrom, decodeSlots, hlast]
      have h := Fills.bind hslot (Fills.pure ())
      rw [bind_pure] at h
      exact h
    | cons u fields => exact Fills.bind hslot hrest

end Ese.Build.Record
