import Mathlib
import Ese.Proofs.Record.Division
/-!
The order of the areas of a record: header, fixed values, null bitmap, variable directory, variable
values and tagged area. The lengths that a record states leave them in this order if they leave room
for the bitmap behind the fixed values and if no null entry of the variable directory goes back.
Decoding checks neither of the two; what holds without them holds of every record that decodes.
-/

namespace Ese.Record

/-! Fixed and variable values -/

theorem tiles_fixedFields (lastFixed : UInt8) (columns : List Column) (offset : Nat) :
    Span.Tiles offset ((fixedFields lastFixed columns offset).map (·.2))
      (offset + ((fixedFields lastFixed columns offset).map (·.2.length)).sum) := by
  induction columns generalizing offset with
  | nil => exact (Nat.add_zero offset).symm
  | cons c columns ih =>
    rw [fixedFields]
    split
    · exact (Nat.add_zero offset).symm
    split
    · exact (Nat.add_zero offset).symm
    rename_i width _
    have hwidth : Span.length ⟨offset, offset + width⟩ = width := Nat.add_sub_cancel_left ..
    rw [List.map_cons, List.map_cons, List.sum_cons, hwidth, ← Nat.add_assoc]
    exact ⟨rfl, Nat.le_add_right .., ih (offset + width)⟩

/-- Wherever the entries go, the values stand behind the start of the values. -/
theorem le_of_mem_valuesFrom {start index previous : Nat} {ends : List VariableEnd} {v : Nat × Span}
    (h : v ∈ valuesFrom start ends index previous) : start ≤ v.2.first := by
  induction ends generalizing index previous with
  | nil => cases h
  | cons e ends ih =>
    rw [valuesFrom] at h
    split at h
    · exact ih h
    · rcases List.mem_cons.mp h with rfl | h
      · exact Nat.le_add_right start previous
      · exact ih h

/-- A null entry ends no earlier than the entry in front of it. -/
def Forward (a b : VariableEnd) : Prop := b.isNull → a.position ≤ b.position

instance (a b : VariableEnd) : Decidable (Forward a b) :=
  inferInstanceAs (Decidable (b.isNull → a.position ≤ b.position))

theorem laid_valuesFrom (start index : Nat) {e : VariableEnd} {ends : List VariableEnd}
    (hchain : (e :: ends).IsChain Forward)
    (hvalues : ∀ v ∈ valuesFrom start ends index e.position, v.2.first ≤ v.2.last) :
    Span.Laid (start + e.position) ((valuesFrom start ends index e.position).map (·.2))
      (start + endBehind ends e.position) := by
  induction ends generalizing index e with
  | nil => exact le_rfl
  | cons next ends ih =>
    obtain ⟨hnext, hrest⟩ := List.isChain_cons_cons.mp hchain
    rw [valuesFrom] at hvalues ⊢
    split
    · rename_i hnull
      rw [if_pos hnull] at hvalues
      -- a null entry has no value, but the next value starts where it points
      exact Span.Laid.of_le (Nat.add_le_add_left (hnext hnull) start) (ih _ hrest hvalues)
    · rename_i hpresent
      rw [if_neg hpresent] at hvalues
      obtain ⟨hown, hbehind⟩ := List.forall_mem_cons.mp hvalues
      exact ⟨le_rfl, hown, ih _ hrest hbehind⟩

/-! The areas -/

namespace Division

variable (d : Division) (table : Table) (record : Bytes)

def lead : List Span := ⟨0, fixedStart⟩ :: (d.fixed table).map (·.2)

def fixedEnd : Nat := fixedStart + ((d.fixed table).map (·.2.length)).sum

def front : List Span := d.lead table ++ [d.header.bitmap]

/-- The variable directory, the variable values that are not null and the tagged area. -/
def back : List Span := d.header.directory :: d.values.map (·.2) ++ [⟨d.start, record.length⟩]

def HasRoom : Prop := d.fixedEnd table + d.header.bitmapLength ≤ d.header.directoryStart

def GoesForward : Prop := d.ends.IsChain Forward

instance : Decidable (d.HasRoom table) := inferInstanceAs (Decidable (_ ≤ _))

instance : Decidable d.GoesForward := inferInstanceAs (Decidable (d.ends.IsChain Forward))

variable {d table record}

theorem tiles_lead : Span.Tiles 0 (d.lead table) (d.fixedEnd table) :=
  ⟨rfl, Nat.zero_le _, tiles_fixedFields _ _ _⟩

theorem laid_front (hroom : d.HasRoom table) :
    Span.Laid 0 (d.front table) d.header.directoryStart :=
  tiles_lead.laid.append ⟨Nat.le_sub_of_add_le hroom, Nat.sub_le .., le_rfl⟩

theorem pairwise_front_iff (hroom : d.header.bitmapLength ≤ d.header.directoryStart) :
    (d.front table).Pairwise Span.Before ↔ d.HasRoom table := by
  refine ⟨fun hfront => ?_, fun h => (laid_front h).pairwise⟩
  have hlead : Span.Tiles 0 (d.lead table) (d.fixedEnd table) := tiles_lead
  obtain ⟨s, hs, hlast⟩ := Span.Tiles.exists_last hlead
  have hbefore := (List.pairwise_append.mp hfront).2.2 s hs _ (List.mem_singleton_self _)
  have hend : d.fixedEnd table ≤ d.header.directoryStart - d.header.bitmapLength := hlast ▸ hbefore
  exact Nat.add_le_of_le_sub hroom hend

theorem laid_values (hforward : d.GoesForward) (hvalues : ∀ v ∈ d.values, v.2.Within record) :
    Span.Laid d.header.directoryStart (d.header.directory :: d.values.map (·.2)) d.start := by
  have hchain : (⟨false, 0⟩ :: d.ends : List VariableEnd).IsChain Forward :=
    hforward.cons fun _ _ _ => Nat.zero_le _
  have hlaid := laid_valuesFrom d.header.variableStart 0 hchain
    fun v hv => (hvalues v hv).ordered
  rw [Nat.add_zero] at hlaid
  exact ⟨Nat.le_refl _, Nat.le_add_right _ _, hlaid⟩

theorem pairwise_back (hforward : d.GoesForward) (hvalues : ∀ v ∈ d.values, v.2.Within record) :
    (d.back record).Pairwise Span.Before := by
  have hlaid := laid_values hforward hvalues
  refine List.pairwise_append.mpr ⟨hlaid.pairwise, List.pairwise_singleton .., ?_⟩
  intro s hs area harea
  exact List.mem_singleton.mp harea ▸ hlaid.last_le s hs

theorem directoryStart_le_of_mem_back : ∀ s ∈ d.back record, d.header.directoryStart ≤ s.first := by
  intro s hs
  rcases List.mem_append.mp hs with hs | hs
  · rcases List.mem_cons.mp hs with rfl | hs
    · exact le_rfl
    · obtain ⟨v, hv, rfl⟩ := List.mem_map.mp hs
      exact (Nat.le_add_right ..).trans (le_of_mem_valuesFrom hv)
  · rw [List.mem_singleton.mp hs]
    exact (Nat.le_add_right ..).trans (Nat.le_add_right ..)

/-- The order of the areas, as far as the lengths in the record decide it. -/
structure Ordered (d : Division) (table : Table) (record : Bytes) : Prop where
  lead : Span.Tiles 0 (d.lead table) (d.fixedEnd table)
  bitmap : d.header.bitmap.last = d.header.directory.first
  values : ∀ v ∈ d.values, d.header.directory.Before v.2
  tagged : d.header.directory.Before ⟨d.start, record.length⟩
  front : (d.front table).Pairwise Span.Before ↔ d.HasRoom table
  back : d.GoesForward → (d.back record).Pairwise Span.Before
  whole : d.HasRoom table → d.GoesForward → (d.front table ++ d.back record).Pairwise Span.Before

theorem Yields.ordered {schema : Schema} {row : Row} (h : d.Yields schema record row) :
    d.Ordered schema.table record := by
  refine ⟨tiles_lead, rfl, fun _ => le_of_mem_valuesFrom, Nat.le_add_right ..,
    pairwise_front_iff h.room, fun hforward => pairwise_back hforward h.values,
    fun hroom hforward => ?_⟩
  refine List.pairwise_append.mpr
    ⟨(laid_front hroom).pairwise, pairwise_back hforward h.values, fun a ha b hb => ?_⟩
  exact ((laid_front hroom).last_le a ha).trans (directoryStart_le_of_mem_back b hb)

end Division

/-- A row is read from areas of its record that are in their order wherever the lengths in the
record leave room for them. -/
theorem ordered_decode {schema : Schema} {record : Bytes} {row : Row}
    (h : decode schema record = .ok row) :
    ∃ d : Division, d.Yields schema record row ∧ d.Ordered schema.table record := by
  obtain ⟨d, hd⟩ := yields_of_decode h
  exact ⟨d, hd, hd.ordered⟩

def notes : Table where
  name := "Notes"
  objectId := 1
  root := ⟨5⟩
  columns := Columns.empty.insert ⟨1, "Id", .long, 4, 0, 0⟩
    |>.insert ⟨128, "A", .binary, 0, 0, 0⟩
    |>.insert ⟨129, "B", .binary, 0, 0, 0⟩
    |>.insert ⟨130, "C", .binary, 0, 0, 0⟩

/-- A fixed value and its bitmap, and variable values with a null one between them. -/
def forward : Bytes :=
  [0x01, 0x82, 9, 0, 7, 0, 0, 0, 0x00, 2, 0, 2, 0x80, 3, 0, 0x61, 0x62, 0x63]

theorem ordered_forward :
    decode ⟨notes, documentLayout, {}⟩ forward =
        .ok ⟨[("Id", .int 7), ("A", .bytes [0x61, 0x62]), ("C", .bytes [0x63])], []⟩ ∧
      ∃ d : Division, d.Ordered notes forward ∧ d.HasRoom notes ∧ d.GoesForward ∧
        d.front notes = [⟨0, 4⟩, ⟨4, 8⟩, ⟨8, 9⟩] ∧
        d.back forward = [⟨9, 15⟩, ⟨15, 17⟩, ⟨17, 18⟩, ⟨18, 18⟩] := by
  have hrow : decode ⟨notes, documentLayout, {}⟩ forward =
      .ok ⟨[("Id", .int 7), ("A", .bytes [0x61, 0x62]), ("C", .bytes [0x63])], []⟩ := by
    decide +kernel
  have hdivide : divide ⟨notes, documentLayout, {}⟩ forward =
      .ok ⟨⟨1, 130, 9⟩, [⟨false, 2⟩, ⟨true, 2⟩, ⟨false, 3⟩], []⟩ := by
    decide +kernel
  obtain ⟨d, hd, hordered⟩ := ordered_decode hrow
  obtain rfl := Except.ok.inj (hd.divided.symm.trans hdivide)
  exact ⟨hrow, _, hordered, by decide, by decide, by decide, by decide⟩

/-- The null entry goes back, and the value behind it starts inside the value in front of it. -/
def backward : Bytes := [0x00, 0x82, 4, 0, 2, 0, 1, 0x80, 3, 0, 0x61, 0x62, 0x63]

/-- The bitmap has no byte of its own, and is the last byte of the fixed value. -/
def cramped : Bytes := [0x01, 0x7F, 8, 0, 7, 0, 0, 0]

/-- Records decode whose values share bytes with one another or with the bitmap. -/
theorem sharing_notes :
    (decode ⟨notes, documentLayout, {}⟩ backward =
        .ok ⟨[("A", .bytes [0x61, 0x62]), ("C", .bytes [0x62, 0x63])], []⟩ ∧
      ∃ d, divide ⟨notes, documentLayout, {}⟩ backward = .ok d ∧
        d.values = [(0, ⟨10, 12⟩), (2, ⟨11, 13⟩)] ∧ ¬ (d.back backward).Pairwise Span.Before) ∧
    decode ⟨notes, documentLayout, {}⟩ cramped = .ok ⟨[("Id", .int 7)], []⟩ ∧
      ∃ d, divide ⟨notes, documentLayout, {}⟩ cramped = .ok d ∧
        d.front notes = [⟨0, 4⟩, ⟨4, 8⟩, ⟨7, 8⟩] ∧ ¬ (d.front notes).Pairwise Span.Before := by
  refine ⟨⟨by decide +kernel,
      ⟨⟨0, 130, 4⟩, [⟨false, 2⟩, ⟨true, 1⟩, ⟨false, 3⟩], []⟩, by decide +kernel, by decide,
      by decide⟩,
    by decide +kernel, ⟨⟨1, 127, 8⟩, [], []⟩, by decide +kernel, by decide, by decide⟩

end Ese.Record
