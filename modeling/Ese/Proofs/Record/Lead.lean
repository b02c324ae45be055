import Mathlib
import Ese.Proofs.Keyed
import Ese.Proofs.Record.Types
/-!
Columns whose values are known to be there. Fixed columns that come first in a table and are not
null have the first cells of a row, at offsets that do not depend on the record; a row gives the
value of a cell under the name of its column, if no cell before it has that name.
-/

namespace Ese.Record

/-! The first of the fixed values -/

def leadFields : List (Column × Nat) → (offset : Nat) → List (Column × Span)
  | [], _ => []
  | (c, width) :: lead, offset => (c, ⟨offset, offset + width⟩) :: leadFields lead (offset + width)

theorem fixedFields_lead {lastFixed : UInt8} {lead : List (Column × Nat)} (rest : List Column)
    (offset : Nat)
    (h : ∀ x ∈ lead, ¬ x.1.id > lastFixed.toUInt32 ∧ x.1.fixedWidth = some x.2) :
    fixedFields lastFixed (lead.map (·.1) ++ rest) offset =
      leadFields lead offset ++ fixedFields lastFixed rest (offset + (lead.map (·.2)).sum) := by
  induction lead generalizing offset with
  | nil => rfl
  | cons x lead ih =>
    obtain ⟨⟨hid, hwidth⟩, h⟩ := List.forall_mem_cons.mp h
    simp only [List.map_cons, List.cons_append, fixedFields, if_neg hid, hwidth, leadFields,
      List.sum_cons, ih (offset + x.2) h, Nat.add_assoc]

theorem mem_of_mem_leadFields {lead : List (Column × Nat)} {offset : Nat} {f : Column × Span}
    (h : f ∈ leadFields lead offset) : f.1 ∈ lead.map (·.1) := by
  induction lead generalizing offset with
  | nil => cases h
  | cons x lead ih =>
    rcases List.mem_cons.mp h with rfl | h
    · exact List.mem_cons_self
    · exact List.mem_cons_of_mem x.1 (ih h)

theorem of_joined_append {γ : Type} {f : γ → Except DecodeError (List Cell)} {a b : List γ}
    {cells : List Cell} (h : joined f (a ++ b) = .ok cells) :
    ∃ x y, joined f a = .ok x ∧ joined f b = .ok y ∧ cells = x ++ y := by
  induction a generalizing cells with
  | nil => exact ⟨[], cells, rfl, h, rfl⟩
  | cons g a ih =>
    rw [List.cons_append, joined_cons] at h
    obtain ⟨own, hown, h⟩ := Outcome.of_bind_ok h
    obtain ⟨more, hmore, h⟩ := Outcome.of_bind_ok h
    obtain rfl := Except.ok.inj h
    obtain ⟨x, y, hx, hy, rfl⟩ := ih hmore
    exact ⟨own ++ x, y, joined_of_ok hown hx, hy, (List.append_assoc ..).symm⟩

/-- Fields that are not null have a plain cell each. -/
theorem plain_of_joined {record bitmap : Bytes} {fields : List (Column × Span)} {cells : List Cell}
    (hpresent : ∀ f ∈ fields, isNull bitmap f.1.id = .ok false)
    (h : joined (fixedCells record bitmap) fields = .ok cells) :
    List.Forall₂ (fun f cell => plainCell f.1 (f.2.of record) = .ok cell) fields cells := by
  induction fields generalizing cells with
  | nil =>
    cases h
    exact .nil
  | cons f fields ih =>
    obtain ⟨hf, hpresent⟩ := List.forall_mem_cons.mp hpresent
    rw [joined_cons] at h
    obtain ⟨own, hown, h⟩ := Outcome.of_bind_ok h
    obtain ⟨more, hmore, h⟩ := Outcome.of_bind_ok h
    obtain rfl := Except.ok.inj h
    rw [fixedCells, hf] at hown
    obtain ⟨cell, hcell, rfl⟩ := Outcome.of_map_ok hown
    exact .cons hcell (ih hpresent hmore)

/-! What is read from a record -/

theorem slice_part {record bytes : Bytes} {offset count : Nat} {part : Part}
    (h : slice record offset count part = .ok bytes) (part' : Part) :
    slice record offset count part' = .ok bytes := slice_eq_ok_iff.mpr (slice_eq_ok_iff.mp h)

theorem readNat_part {record : Bytes} {width offset n : Nat} {part : Part}
    (h : readNat record width offset part = .ok n) (part' : Part) :
    readNat record width offset part' = .ok n := by
  obtain ⟨bytes, hslice, rfl⟩ := Outcome.of_map_ok h
  rw [readNat, slice_part hslice part']
  rfl

theorem readU8_part {record : Bytes} {offset : Nat} {n : UInt8} {part : Part}
    (h : readU8 record offset part = .ok n) (part' : Part) :
    readU8 record offset part' = .ok n := by
  obtain ⟨m, hnat, rfl⟩ := Outcome.of_map_ok h
  rw [readU8, readNat_part hnat part']
  rfl

theorem readU16_part {record : Bytes} {offset : Nat} {n : UInt16} {part : Part}
    (h : readU16 record offset part = .ok n) (part' : Part) :
    readU16 record offset part' = .ok n := by
  obtain ⟨m, hnat, rfl⟩ := Outcome.of_map_ok h
  rw [readU16, readNat_part hnat part']
  rfl

/-- A number is the same from its span and from its offset. -/
theorem readNat_of_within {record : Bytes} {first width : Nat}
    (h : Span.Within ⟨first, first + width⟩ record) (part part' : Part) :
    readNat record width first part =
      readNat (Span.of ⟨first, first + width⟩ record) width 0 part' := by
  have hinside : first + width ≤ record.length := h.inside
  have hof : Span.of ⟨first, first + width⟩ record = (record.drop first).take width := by
    simp [Span.of]
  have hall : slice record first width part = .ok ((record.drop first).take width) :=
    slice_eq_ok_iff.mpr ⟨hinside, rfl⟩
  have hown : slice ((record.drop first).take width) 0 width part' =
      .ok ((record.drop first).take width) := by
    refine slice_eq_ok_iff.mpr ⟨?_, ?_⟩
    · simp
      omega
    · simp
  rw [hof]
  unfold readNat
  rw [hall, hown]

section

variable {record : Bytes} {c : Column} {first : Nat} {cell : Cell}

theorem of_plainCell_long (htype : c.type = .long) (hwithin : Span.Within ⟨first, first + 4⟩ record)
    (h : plainCell c (Span.of ⟨first, first + 4⟩ record) = .ok cell) :
    ∃ n, (∀ part, readU32 record first part = .ok n) ∧ cell = ⟨c.name, .ofI32 n, none⟩ := by
  obtain ⟨value, hvalue, rfl⟩ := Outcome.of_map_ok h
  simp only [Value.decode, htype] at hvalue
  obtain ⟨n, hn, rfl⟩ := Outcome.of_map_ok hvalue
  refine ⟨n, fun part => ?_, rfl⟩
  rw [← hn, readU32, readU32, readNat_of_within hwithin part .columnValue]

theorem of_plainCell_short (htype : c.type = .short)
    (hwithin : Span.Within ⟨first, first + 2⟩ record)
    (h : plainCell c (Span.of ⟨first, first + 2⟩ record) = .ok cell) :
    ∃ n, (∀ part, readU16 record first part = .ok n) ∧ cell = ⟨c.name, .ofI16 n, none⟩ := by
  obtain ⟨value, hvalue, rfl⟩ := Outcome.of_map_ok h
  simp only [Value.decode, htype] at hvalue
  obtain ⟨n, hn, rfl⟩ := Outcome.of_map_ok hvalue
  refine ⟨n, fun part => ?_, rfl⟩
  rw [← hn, readU16, readU16, readNat_of_within hwithin part .columnValue]

theorem column_of_plainCell {bytes : Bytes} (h : plainCell c bytes = .ok cell) :
    cell.column = c.name := by
  obtain ⟨value, -, rfl⟩ := Outcome.of_map_ok h
  rfl

end

/-- The low part of a number is as it was before the sign was spread over the high part. -/
theorem setWidth_signExtend {v w : Nat} (h : v ≤ w) (x : BitVec v) :
    (x.signExtend w).setWidth v = x := by
  ext i hi
  simp [BitVec.getLsbD_signExtend, hi]
  omega

theorem toUInt32_ofI32 (n : UInt32) : n.toInt32.toInt64.toUInt64.toUInt32 = n :=
  UInt32.toBitVec_inj.mp (setWidth_signExtend (w := 64) (by decide) n.toBitVec)

theorem toUInt16_ofI16 (n : UInt16) : n.toInt16.toInt64.toUInt64.toUInt16 = n :=
  UInt16.toBitVec_inj.mp (setWidth_signExtend (w := 64) (by decide) n.toBitVec)

/-! Columns by their names -/

theorem get?_rowOf (cells : List Cell) (name : String) :
    (rowOf cells).get? name = (cells.find? fun c => c.column = name).map (·.value) := by
  simp only [Row.get?, rowOf, addCells, List.nil_append, List.find?_map, Option.map_map]
  rfl

theorem get?_of_mem {front rest : List Cell} {cell : Cell} (hnames : (front.map (·.column)).Nodup)
    (hcell : cell ∈ front) : (rowOf (front ++ rest)).get? cell.column = some cell.value := by
  rw [get?_rowOf, List.find?_append, Keyed.find?_eq hnames hcell]
  rfl

theorem get?_of_new {front rest : List Cell} {name : String} {value : Value}
    {warning : Option Warning} (hnew : ∀ c ∈ front, c.column ≠ name) :
    (rowOf (front ++ ⟨name, value, warning⟩ :: rest)).get? name = some value := by
  have hnone : (front.find? fun c => c.column = name) = none :=
    List.find?_eq_none.mpr fun c hc => by simpa using hnew c hc
  rw [get?_rowOf, List.find?_append, hnone]
  simp

/-! The first columns of a table -/

/-- Columns with ids that follow one another are the first of sorted ones, if no id is before. -/
theorem exists_eq_append {lead columns : List Column} {n : Nat}
    (hsorted : columns.Pairwise fun a b => a.id < b.id) (hfirst : ∀ c ∈ columns, n ≤ c.id.toNat)
    (hmem : ∀ c ∈ lead, c ∈ columns)
    (hids : lead.map (·.id.toNat) = List.range' n lead.length) :
    ∃ rest, columns = lead ++ rest := by
  induction lead generalizing columns n with
  | nil => exact ⟨columns, rfl⟩
  | cons c lead ih =>
    rw [List.map_cons, List.length_cons, List.range'_succ, List.cons.injEq] at hids
    obtain ⟨hid, hids⟩ := hids
    obtain ⟨hc, hlead⟩ := List.forall_mem_cons.mp hmem
    cases columns with
    | nil => cases hc
    | cons d columns =>
      obtain ⟨hd, hbehindSorted⟩ := List.pairwise_cons.mp hsorted
      obtain ⟨hle, -⟩ := List.forall_mem_cons.mp hfirst
      have hcd : c = d := by
        rcases List.mem_cons.mp hc with rfl | hc
        · rfl
        · have hlt := UInt32.lt_iff_toNat_lt.mp (hd c hc)
          omega
      subst hcd
      have hbehind : ∀ x ∈ columns, n + 1 ≤ x.id.toNat := by
        intro x hx
        have hlt := UInt32.lt_iff_toNat_lt.mp (hd x hx)
        omega
      have hin : ∀ x ∈ lead, x ∈ columns := by
        intro x hx
        rcases List.mem_cons.mp (hlead x hx) with rfl | hx'
        · have hge : x.id.toNat ∈ List.range' (n + 1) lead.length :=
            hids ▸ List.mem_map_of_mem hx
          rw [List.mem_range'_1] at hge
          omega
        · exact hx'
      obtain ⟨rest, rfl⟩ := ih hbehindSorted hbehind hin hids
      exact ⟨rest, rfl⟩

end Ese.Record
