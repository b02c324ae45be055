import Mathlib
import Ese.Proofs.Record.Division
/-!
The tagged area of a record. How long its directory is stands nowhere: the entries go on until the
earliest of the values that they name. In a record that decodes this is the first value, since the
values stand in the order of their entries, each up to the next and the last up to the end of the
record.
-/

namespace Ese.Record

/-! The entries of the directory -/

theorem of_readSlotsFrom_ok {layout : Layout} {record : Bytes} {start position : Nat}
    {limit : Option Nat} {slots : List Slot}
    (h : readSlotsFrom layout record start position limit = .ok slots) :
    (slots = [] ∧ ¬ (position < record.length ∧ limit.all (position < ·))) ∨
      ∃ slot rest, slots = slot :: rest ∧ position < record.length ∧ limit.all (position < ·) ∧
        readSlotsFrom layout record start (position + 4)
          (some (earlier limit (start + slot.offset))) = .ok rest := by
  rw [readSlotsFrom] at h
  split at h
  · rename_i hmore
    obtain ⟨id, -, h⟩ := Outcome.of_bind_ok h
    obtain ⟨raw, -, h⟩ := Outcome.of_bind_ok h
    obtain ⟨rest, hrest, h⟩ := Outcome.of_bind_ok h
    cases h
    exact .inr ⟨_, rest, rfl, hmore.1, hmore.2, hrest⟩
  · rename_i hdone
    cases h
    exact .inl ⟨rfl, hdone⟩

/-- Entries of which no value starts before `limit` are as many as fit in front of it. -/
theorem length_of_readSlotsFrom {layout : Layout} {record : Bytes} {start limit : Nat}
    {slots : List Slot} (hlimit : limit ≤ record.length)
    (hslots : ∀ slot ∈ slots, limit ≤ start + slot.offset) {position : Nat}
    (h : readSlotsFrom layout record start position (some limit) = .ok slots) :
    slots.length = (limit - position + 3) / 4 := by
  induction slots generalizing position with
  | nil =>
    rcases of_readSlotsFrom_ok h with ⟨-, hdone⟩ | ⟨_, _, ⟨⟩, -⟩
    have hend : limit ≤ position := by
      by_contra hbefore
      exact hdone ⟨by omega, by simpa using hbefore⟩
    rw [List.length_nil, Nat.sub_eq_zero_of_le hend]
  | cons slot slots ih =>
    obtain ⟨hslot, hslots⟩ := List.forall_mem_cons.mp hslots
    rcases of_readSlotsFrom_ok h with ⟨⟨⟩, -⟩ | ⟨_, _, ⟨⟩, -, hbefore, hrest⟩
    have hbefore : position < limit := by simpa using hbefore
    -- the limit stays, since the value of this entry does not start in front of it
    rw [earlier, Nat.min_eq_left hslot] at hrest
    rw [List.length_cons, ih hslots hrest]
    omega

theorem length_of_readSlots {layout : Layout} {record : Bytes} {start : Nat} {slot : Slot}
    {slots : List Slot} (hfirst : start + slot.offset ≤ record.length)
    (hslots : ∀ next ∈ slots, slot.offset ≤ next.offset)
    (h : readSlots layout record start = .ok (slot :: slots)) :
    (slot :: slots).length = max 1 ((slot.offset + 3) / 4) := by
  rcases of_readSlotsFrom_ok h with ⟨⟨⟩, -⟩ | ⟨_, _, ⟨⟩, -, -, hrest⟩
  have hlength := length_of_readSlotsFrom hfirst
    (fun next hnext => Nat.add_le_add_left (hslots next hnext) start) hrest
  rw [List.length_cons, hlength]
  omega

/-- An area that is not empty has an entry. -/
theorem ne_nil_of_readSlots {layout : Layout} {record : Bytes} {start : Nat} {slots : List Slot}
    (hstart : start < record.length) (h : readSlots layout record start = .ok slots) :
    slots ≠ [] := by
  rcases of_readSlotsFrom_ok h with ⟨-, hdone⟩ | ⟨_, _, rfl, -⟩
  · exact absurd ⟨hstart, rfl⟩ hdone
  · exact nofun

/-! The values -/

theorem firsts_taggedFields (record : Bytes) (start : Nat) (slots : List Slot) :
    ((taggedFields record start slots).map (·.2)).map Span.first =
      slots.map (start + ·.offset) := by
  induction slots with
  | nil => rfl
  | cons slot slots ih => exact congrArg (_ :: ·) ih

theorem taggedFields_eq_zip (record : Bytes) (start : Nat) (slots : List Slot) :
    taggedFields record start slots =
      slots.zip (List.zipWith Span.mk (slots.map (start + ·.offset))
        ((slots.map (start + ·.offset)).tail ++ [record.length])) := by
  induction slots with
  | nil => rfl
  | cons slot slots ih =>
    rw [taggedFields, ih]
    cases slots <;> rfl

/-- The values leave no gaps if none of them ends before it starts. -/
theorem tiles_taggedFields {record : Bytes} {start : Nat} {slot : Slot} {slots : List Slot}
    (h : ∀ f ∈ taggedFields record start (slot :: slots), f.2.Within record) :
    Span.Tiles (start + slot.offset) ((taggedFields record start (slot :: slots)).map (·.2))
      record.length := by
  induction slots generalizing slot with
  | nil => exact ⟨rfl, (h _ (List.mem_singleton_self _)).ordered, rfl⟩
  | cons next slots ih =>
    obtain ⟨hown, hbehind⟩ := List.forall_mem_cons.mp h
    exact ⟨rfl, hown.ordered, ih hbehind⟩

namespace Division

variable {d : Division} {record : Bytes}

def firstOffset (d : Division) : Nat :=
  match d.slots with
  | [] => 0
  | slot :: _ => slot.offset

def taggedDirectory (d : Division) : Span := ⟨d.start, d.start + 4 * d.slots.length⟩

def taggedStarts (d : Division) : List Nat := d.slots.map (d.start + ·.offset)

/-- The tagged values stand side by side up to the end of the record, as their directory has
them. -/
structure Tiled (d : Division) (record : Bytes) : Prop where
  /-- The entries are as many as fit in front of the first value, and one at least. -/
  count : d.slots.length = max 1 ((d.firstOffset + 3) / 4)
  sorted : (d.slots.map (·.offset)).Pairwise (· ≤ ·)
  inside : ∀ start ∈ d.taggedStarts, start ≤ record.length
  values : d.tagged record =
    d.slots.zip (List.zipWith Span.mk d.taggedStarts (d.taggedStarts.tail ++ [record.length]))
  apart : ((d.tagged record).map (·.2)).Pairwise Span.Before
  covered : (d.tagged record).flatMap (·.2.of record) = record.drop (d.start + d.firstOffset)
  directory : 0 < d.firstOffset → 4 ∣ d.firstOffset →
    ∀ f ∈ d.tagged record, d.taggedDirectory.Before f.2

theorem readSlots_of_divide {schema : Schema} (h : divide schema record = .ok d) :
    readSlots schema.layout record d.start = .ok d.slots := by
  obtain ⟨header, -, hrest⟩ := Outcome.of_bind_ok h
  obtain ⟨ends, -, hrest⟩ := Outcome.of_bind_ok hrest
  obtain ⟨slots, hslots, hrest⟩ := Outcome.of_bind_ok hrest
  cases hrest
  exact hslots

/-- That each value is inside the record is enough. -/
theorem tiled_of_within {schema : Schema} (hdivide : divide schema record = .ok d)
    (hstart : d.start < record.length) (hwithin : ∀ f ∈ d.tagged record, f.2.Within record) :
    d.Tiled record := by
  have hread := readSlots_of_divide hdivide
  obtain ⟨slot, slots, hslots⟩ := List.exists_cons_of_ne_nil (ne_nil_of_readSlots hstart hread)
  have hoffset : d.firstOffset = slot.offset := by rw [firstOffset, hslots]
  have hstarts : ((d.tagged record).map (·.2)).map Span.first = d.taggedStarts :=
    firsts_taggedFields ..
  have htiles :
      Span.Tiles (d.start + d.firstOffset) ((d.tagged record).map (·.2)) record.length := by
    rw [hoffset, tagged, hslots]
    rw [tagged, hslots] at hwithin
    exact tiles_taggedFields hwithin
  have hsorted : (d.slots.map (·.offset)).Pairwise (· ≤ ·) := by
    have hfirsts := htiles.laid.sorted
    rw [hstarts, taggedStarts, List.pairwise_map] at hfirsts
    exact List.pairwise_map.mpr (hfirsts.imp Nat.le_of_add_le_add_left)
  -- in this order no entry moves the limit that the first one sets
  have hcount : d.slots.length = max 1 ((d.firstOffset + 3) / 4) := by
    rw [hslots] at hread hsorted ⊢
    rw [hoffset]
    refine length_of_readSlots ?_ (fun next hnext => ?_) hread
    · exact hoffset ▸ htiles.laid.le
    · exact (List.pairwise_cons.mp hsorted).1 _ (List.mem_map_of_mem hnext)
  refine ⟨hcount, hsorted, ?_, taggedFields_eq_zip .., htiles.laid.pairwise, ?_, ?_⟩
  · intro start hmem
    rw [← hstarts] at hmem
    obtain ⟨s, hs, rfl⟩ := List.mem_map.mp hmem
    exact htiles.laid.first_le s hs
  · rw [← Span.of_suffix, ← htiles.flatMap_of, List.flatMap_map]
  · intro hpositive hfour f hf
    have hfirst := htiles.laid.first_ge f.2 (List.mem_map_of_mem hf)
    have hlength : 4 * d.slots.length = d.firstOffset := by omega
    rw [← hlength] at hfirst
    exact hfirst

end Division

theorem tiled_of_decode_ok {schema : Schema} {record : Bytes} {row : Row}
    (h : decode schema record = .ok row) :
    ∃ d : Division, d.Yields schema record row ∧ (d.start < record.length → d.Tiled record) := by
  obtain ⟨d, hd⟩ := yields_of_decode h
  exact ⟨d, hd, fun hstart => Division.tiled_of_within hd.divided hstart hd.tagged⟩

/-- A record that decodes has its tagged area tiled, and a record whose directory breaks a bound of
this is refused. -/
theorem tiled_decode (schema : Schema) (record : Bytes) :
    (∀ row, decode schema record = .ok row → ∃ d : Division, d.Yields schema record row ∧
      (d.start < record.length → d.Tiled record)) ∧
    ∀ d, divide schema record = .ok d → d.start < record.length → ¬ d.Tiled record →
      ∃ e, decode schema record = .error e := by
  refine ⟨fun _ => tiled_of_decode_ok, fun d hdivide hstart hbroken => ?_⟩
  rcases hdecode : decode schema record with e | row
  · exact ⟨e, rfl⟩
  · -- the directories say one thing only, so it is this division that is tiled
    obtain ⟨d', hd', htiled⟩ := tiled_of_decode_ok hdecode
    cases hdivide.symm.trans hd'.divided
    exact absurd (htiled hstart) hbroken

def unfinishedRow : Row where
  columns := [("Body", .bytes [0x18, 0x41]), ("Raw", .bytes [1, 2])]
  warnings := [.lzxpress "Body", .multiValue "Raw"]

/-- The first value starts behind the second one. -/
def crossed : Bytes := [0x00, 0x7F, 4, 0, 0x00, 0x01, 10, 0x40, 0x01, 0x01, 8, 0x40, 0x02, 0x18]

theorem tiled_unfinished :
    (∃ d : Division, d.Yields ⟨documents, documentLayout, {}⟩ unfinished unfinishedRow ∧
      d.Tiled unfinished ∧ d.taggedDirectory = ⟨4, 12⟩ ∧
        (d.tagged unfinished).map (·.2) = [⟨12, 15⟩, ⟨15, 18⟩]) ∧
      ∃ e, decode ⟨documents, documentLayout, {}⟩ crossed = .error e := by
  have hdivide : divide ⟨documents, documentLayout, {}⟩ unfinished =
      .ok ⟨⟨0, 127, 4⟩, [], [⟨256, 8, true⟩, ⟨257, 11, true⟩]⟩ := by
    decide +kernel
  obtain ⟨d, hd, htiled⟩ :=
    (tiled_decode ⟨documents, documentLayout, {}⟩ unfinished).1 unfinishedRow (by decide +kernel)
  obtain rfl := Except.ok.inj (hd.divided.symm.trans hdivide)
  refine ⟨⟨_, hd, htiled (by decide), by decide, by decide⟩, ?_⟩
  refine (tiled_decode ⟨documents, documentLayout, {}⟩ crossed).2
    ⟨⟨0, 127, 4⟩, [], [⟨256, 10, true⟩, ⟨257, 8, true⟩]⟩ (by decide +kernel) (by decide) fun h => ?_
  exact absurd h.sorted (by decide)

end Ese.Record
