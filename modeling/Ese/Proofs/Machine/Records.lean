import Mathlib
import Ese.Proofs.Bytes.Field
import Ese.Proofs.Machine.Text
import Ese.Proofs.Record.Warnings
/-!
Records, decoded with checked operations. The bitmap has a bit for every fixed column of the record
because the columns are passed up to the last one of these; the rest is offsets of 16 bits and
fewer, added up. A tagged value gives one warning at most, so a row has fewer than the record has
bytes.
-/

namespace Ese.Machine

open Record (Decode)

/-! Fixed columns -/

def readBitmap (record : Bytes) (h : Record.Header) : Except DecodeError Bytes := do
  let bits ← add 64 h.lastFixed.toNat 7
  let length ← div bits 8
  if h.directoryStart < length then .error (.format (.noRoomForBitmap h.directoryStart))
  else slice record (h.directoryStart - length) length .nullBitmap

def isNull (bitmap : Bytes) (id : UInt32) : Except DecodeError Bool := do
  let bit ← sub id.toNat 1
  let byte ← item bitmap (bit / 8)
  let mask ← shiftLeft 8 1 (bit % 8)
  return byte &&& UInt8.ofNat mask != 0

def decodeFixedFrom (record bitmap : Bytes) (lastFixed : UInt8) :
    List Column → (offset : Nat) → Decode Unit
  | [], _ => pure ()
  | c :: columns, offset =>
    if c.id > lastFixed.toUInt32 then pure ()
    else match c.fixedWidth with
      | none => throw (.schema (.noWidth c.name))
      | some width => do
        let bytes ← slice record offset width .fixedColumn
        let next ← add 64 offset width
        let null ← isNull bitmap c.id
        unless null do Record.insertPlain c bytes
        decodeFixedFrom record bitmap lastFixed columns next

def decodeFixed (schema : Record.Schema) (record : Bytes) (h : Record.Header) : Decode Unit := do
  let bitmap ← readBitmap record h
  decodeFixedFrom record bitmap h.lastFixed schema.table.columns.fixed Record.fixedStart

/-! Variable columns -/

def variableStart (h : Record.Header) : Except DecodeError Nat := do
  let length ← mul 64 2 h.variableCount
  add 64 h.directoryStart length

def variableId (index : Nat) : Except DecodeError UInt32 := do
  let number ← fit 32 index
  let id ← add 32 128 number
  return UInt32.ofNat id

def decodeVariableValue (schema : Record.Schema) (record : Bytes) (start : Nat)
    (index previous last : Nat) : Decode Unit :=
  if last < previous then throw (.format (.variableEndBefore last previous))
  else do
    let first ← add 64 start previous
    let bytes ← slice record first (last - previous) .variableColumn
    let id ← variableId index
    match schema.table.columns.byId? id with
    | some c => Record.insertPlain c bytes
    | none => pure ()

def decodeVariableFrom (schema : Record.Schema) (record : Bytes) (h : Record.Header) (start : Nat) :
    (remaining index previous : Nat) → Decode Nat
  | 0, _, previous => pure previous
  | remaining + 1, index, previous => do
    let distance ← mul 64 2 index
    let place ← add 64 h.directoryStart distance
    let raw ← readU16 record place .variableDirectory
    let last := Record.VariableEnd.ofRaw raw
    unless last.isNull do
      decodeVariableValue schema record start index previous last.position
    decodeVariableFrom schema record h start remaining (index + 1) last.position

def decodeVariable (schema : Record.Schema) (record : Bytes) (h : Record.Header) : Decode Nat := do
  let start ← variableStart h
  let last ← decodeVariableFrom schema record h start h.variableCount 0 0
  add 64 start last

/-! Tagged columns -/

def readSlotsFrom (layout : Layout) (record : Bytes) (start position : Nat) (limit : Option Nat) :
    Except DecodeError (List Record.Slot) :=
  if position < record.length ∧ limit.all (position < ·) then do
    let id ← readU16 record position .taggedDirectory
    let second ← add 64 position 2
    let raw ← readU16 record second .taggedDirectory
    let slot := Record.Slot.ofRaw layout id raw
    let first ← add 64 start slot.offset
    let limit := Record.earlier limit first
    let _ ← add 64 position 4
    let slots ← readSlotsFrom layout record start (position + 4) (some limit)
    return slot :: slots
  else .ok []
  termination_by record.length - position

def insertContent (c : Column) (compressed : Bool) (bytes : Bytes) : Decode Unit :=
  if compressed && c.type.isText then do
    match ← decodeCompressed bytes with
    | some text => Record.insert c (.string text)
    | none => do
      Record.remark (.lzxpressKept bytes.length)
      let encoding ← classify bytes
      Record.remark (.textKeptRaw c.name encoding)
      Record.insert c (.bytes bytes)
      Record.warn (.lzxpress c.name)
  else Record.insertPlain c bytes

def insertLongValue (schema : Record.Schema) (c : Column) (compressed : Bool) (reference : Bytes) :
    Decode Unit := do
  let lid ← Lid.ofReference reference
  match schema.longValues.get? lid with
  | some content => insertContent c compressed content
  | none => do
    Record.insert c (.bytes reference)
    Record.warn (.missingLongValue c.name lid.value)

def insertTagged (schema : Record.Schema) (c : Column) (flags : Record.ValueFlags) (bytes : Bytes) :
    Decode Unit :=
  if flags.null then pure ()
  else if flags.multiple then do
    Record.insert c (.bytes bytes)
    Record.warn (.multiValue c.name)
  else if flags.longValue then insertLongValue schema c flags.compressed bytes
  else insertContent c flags.compressed bytes

def decodeSlot (schema : Record.Schema) (record : Bytes) (start : Nat) (slot : Record.Slot)
    (last : Nat) : Decode Unit := do
  let first ← add 64 start slot.offset
  if last < first then throw (.format (.taggedOverlap slot.id))
  else do
    let bytes ← slice record first (last - first) .taggedColumn
    match schema.table.columns.byId? slot.id.toUInt32 with
    | some c =>
      let (flags, content) := Record.splitFlags slot.hasFlags bytes
      insertTagged schema c flags content
    | none => Record.remark (.columnNotListed slot.id schema.table.name)

def decodeSlots (schema : Record.Schema) (record : Bytes) (start : Nat) :
    List Record.Slot → Decode Unit
  | [] => pure ()
  | [slot] => decodeSlot schema record start slot record.length
  | slot :: next :: slots => do
    let last ← add 64 start next.offset
    decodeSlot schema record start slot last
    decodeSlots schema record start (next :: slots)

def decodeTagged (schema : Record.Schema) (record : Bytes) (start : Nat) : Decode Unit := do
  let slots ← readSlotsFrom schema.layout record start start none
  decodeSlots schema record start slots

/-! Whole records -/

def decodeInto (schema : Record.Schema) (record : Bytes) : Decode Unit := do
  let header ← Record.Header.read record
  decodeFixed schema record header
  let start ← decodeVariable schema record header
  decodeTagged schema record start

def decode (schema : Record.Schema) (record : Bytes) : Except DecodeError Row :=
  match decodeInto schema record {} with
  | .ok () draft => .ok draft.row
  | .error e _ => .error e

/-! Decoding is safe -/

variable {α β : Type}

/-- The first part of a decoding is the second, comes to no fault, and gives `n` warnings at
most. -/
def Decodes (n : Nat) (x y : Decode α) : Prop :=
  ∀ draft, Agree DecodeError.Faultless
    (fun r r' => r = r' ∧ r'.row.warnings.length ≤ draft.row.warnings.length + n)
    (x draft) (y draft)

namespace Decodes

variable {m n : Nat} {x y : Decode α} {f g : α → Decode β}

theorem pure (a : α) : Decodes n (pure a) (pure a) := fun _ => .ok ⟨rfl, Nat.le_add_right ..⟩

theorem throw {e : DecodeError} (h : e.Faultless) : Decodes n (throw e : Decode α) (throw e) :=
  fun _ => .error h ⟨rfl, Nat.le_add_right ..⟩

theorem mono (h : Decodes m x y) (hmn : m ≤ n) : Decodes n x y := by
  refine fun draft => (h draft).mono (fun _ => id) fun r r' hr => ⟨hr.1, ?_⟩
  exact hr.2.trans (Nat.add_le_add_left hmn _)

theorem bind (h : Decodes m x y)
    (hf : ∀ a draft draft', y draft = .ok a draft' → Decodes n (f a) (g a)) :
    Decodes (m + n) (x >>= f) (y >>= g) := by
  intro draft
  refine (h draft).bind (fun a r r' hy hr => ?_) fun r r' hr => ⟨hr.1, ?_⟩
  · obtain ⟨rfl, hfirst⟩ := hr
    refine (hf a draft r hy r).mono (fun _ => id) fun s s' hs => ⟨hs.1, ?_⟩
    have hsecond := hs.2
    omega
  · have hfirst := hr.2
    omega

theorem after (h : Decodes 0 x y)
    (hf : ∀ a draft draft', y draft = .ok a draft' → Decodes n (f a) (g a)) :
    Decodes n (x >>= f) (y >>= g) :=
  (h.bind hf).mono (Nat.zero_add n).le

theorem lift {x y : Except DecodeError α} (h : Safe x y) :
    Decodes n (liftM x : Decode α) (liftM y) := by
  obtain ⟨rfl, hx⟩ := h
  rcases x with e | a
  · exact throw (hx e rfl)
  · exact pure a

theorem read {x y : Except DecodeError α} (h : Safe x y)
    (hf : ∀ a, y = .ok a → Decodes n (f a) (g a)) :
    Decodes n (liftM x >>= f) (liftM y >>= g) :=
  (lift h).after fun a _ _ ha => hf a (Record.Decode.of_lift_ok ha).1

theorem step {x : Except DecodeError α} {a : α} {z : Decode β} (h : x = .ok a)
    (hf : Decodes n (f a) z) : Decodes n (liftM x >>= f) z := by
  rw [h]
  exact hf

theorem insert (c : Column) (v : Value) : Decodes 0 (Record.insert c v) (Record.insert c v) :=
  fun _ => .ok ⟨rfl, le_rfl⟩

theorem warn (w : Warning) : Decodes 1 (Record.warn w) (Record.warn w) :=
  fun _ => .ok ⟨rfl, by simp [Row.warn]⟩

theorem remark (r : Trace.Remark) : Decodes 0 (Record.remark r) (Record.remark r) :=
  fun _ => .ok ⟨rfl, le_rfl⟩

end Decodes

section

variable {schema : Record.Schema} {record : Bytes}

theorem safe_value (c : Column) (bytes : Bytes) :
    Safe (Value.decode c bytes) (Value.decode c bytes) := by
  have hfirst : 0 < addressLimit := by decide
  unfold Value.decode
  split
  · exact (safe_readU8 hfirst _).map _
  · exact (safe_readU8 hfirst _).map _
  · exact (safe_readU16 hfirst _).map _
  · exact (safe_readU16 hfirst _).map _
  · exact (safe_readU32 hfirst _).map _
  · exact (safe_readU32 hfirst _).map _
  · exact (safe_readU64 hfirst _).map _
  · exact (safe_readU64 hfirst _).map _
  · exact (safe_readU64 hfirst _).map _
  · exact (safe_readU32 hfirst _).map _
  · exact (safe_readU64 hfirst _).map _
  · exact (safe_slice hfirst _ _).map _
  all_goals exact .ok _

theorem decodes_plain (c : Column) (bytes : Bytes) :
    Decodes 0 (Record.insertPlain c bytes) (Record.insertPlain c bytes) :=
  .read (safe_value c bytes) fun v _ => .insert c v

/-! Fixed columns -/

theorem safe_readBitmap (record : Bytes) (h : Record.Header) :
    Safe (readBitmap record h) (Record.readBitmap record h) := by
  have hfixed := h.lastFixed.toNat_lt
  have hoffset : h.directoryStart < 2 ^ 16 := h.variableOffset.toNat_lt
  refine .step (add_eq (by omega)) (.step (div_eq (by decide)) ?_)
  change Safe (if h.directoryStart < h.bitmapLength then _ else _)
    (if h.directoryStart < h.bitmapLength then _ else _)
  split
  · exact .error trivial
  · refine safe_slice (lt_of_le_of_lt (Nat.sub_le ..) (hoffset.trans (by decide))) _ _

theorem length_readBitmap {h : Record.Header} {bitmap : Bytes}
    (hread : Record.readBitmap record h = .ok bitmap) : bitmap.length = h.bitmapLength := by
  unfold Record.readBitmap at hread
  split at hread
  · cases hread
  · obtain ⟨hend, rfl⟩ := slice_eq_ok_iff.mp hread
    rw [List.length_take, List.length_drop]
    omega

theorem masked_eq_testBit (byte : UInt8) {k : Nat} (hk : k < 8) :
    (byte &&& UInt8.ofNat (1 * 2 ^ k) != 0) = byte.toNat.testBit k := by
  have hmask : 1 * 2 ^ k < 2 ^ 8 := by
    rw [Nat.one_mul]
    exact Nat.pow_lt_pow_right (by decide) hk
  rw [Bool.eq_iff_iff, bne_iff_ne, ne_eq, ← UInt8.toNat_inj, UInt8.toNat_and,
    UInt8.toNat_ofNat_of_lt' hmask, Nat.one_mul, Nat.and_two_pow]
  cases byte.toNat.testBit k <;> simp

/-- The columns that a record has start at one, and the bitmap reaches the last of them. -/
theorem safe_isNull {bitmap : Bytes} {id : UInt32} {last : Nat} (hid : 1 ≤ id.toNat)
    (hlast : id.toNat ≤ last) (hbitmap : bitmap.length = (last + 7) / 8) :
    Safe (isNull bitmap id) (Record.isNull bitmap id) := by
  obtain ⟨bit, hbit⟩ : ∃ bit, id.toNat = bit + 1 := ⟨id.toNat - 1, by omega⟩
  have hk : bit % 8 < 8 := Nat.mod_lt _ (by decide)
  have hplace : bit / 8 < bitmap.length := by omega
  have hbyte := List.getElem?_eq_getElem hplace
  have hmask : 1 * 2 ^ (bit % 8) < 2 ^ 8 := by
    rw [Nat.one_mul]
    exact Nat.pow_lt_pow_right (by decide) hk
  unfold isNull Record.isNull
  rw [hbit]
  refine .step (sub_eq (by omega)) ?_
  rw [Nat.add_sub_cancel]
  refine .step (item_eq hbyte) (.step (shiftLeft_eq hk hmask) ?_)
  simp only [hbyte, masked_eq_testBit _ hk, Build.Record.bit_eq_testBit _ hk]
  exact .ok _

theorem decodes_fixedFrom (hrecord : record.length < bufferLimit) {bitmap : Bytes} {last : UInt8}
    (hbitmap : bitmap.length = (last.toNat + 7) / 8) (columns : List Column)
    (hids : ∀ c ∈ columns, 1 ≤ c.id.toNat) {offset : Nat} (hoffset : offset < addressLimit) :
    Decodes 0 (decodeFixedFrom record bitmap last columns offset)
      (Record.decodeFixedFrom record bitmap last columns offset) := by
  induction columns generalizing offset with
  | nil => exact .pure ()
  | cons c columns ih =>
    rw [decodeFixedFrom, Record.decodeFixedFrom]
    split
    · exact .pure ()
    rename_i hcolumn
    have hlast : c.id.toNat ≤ last.toNat := by
      rw [← UInt8.toNat_toUInt32]
      exact UInt32.le_iff_toNat_le.mp (UInt32.not_lt.mp hcolumn)
    rcases c.fixedWidth with _ | width
    · exact .throw trivial
    refine .read (safe_slice hoffset _ _) fun bytes hslice => ?_
    have hend : offset + width < addressLimit :=
      lt_of_le_of_lt (slice_eq_ok_iff.mp hslice).1 (hrecord.trans (by decide))
    refine .step (add_eq hend) ?_
    refine .read (safe_isNull (hids c List.mem_cons_self) hlast hbitmap) fun null _ => ?_
    have hrest := ih (fun d hd => hids d (List.mem_cons_of_mem c hd)) hend
    cases null
    · exact (decodes_plain c bytes).after fun _ _ _ _ => hrest
    · exact hrest

theorem decodes_fixed (hrecord : record.length < bufferLimit) (schema : Record.Schema)
    (h : Record.Header) :
    Decodes 0 (decodeFixed schema record h) (Record.decodeFixed schema record h) := by
  refine .read (safe_readBitmap record h) fun bitmap hread => ?_
  refine decodes_fixedFrom hrecord (length_readBitmap hread) _ (fun c hc => ?_) (by decide)
  have hfirst := (Bool.and_eq_true_iff.mp (List.mem_filter.mp hc).2).1
  exact UInt32.le_iff_toNat_le.mp (of_decide_eq_true hfirst)

/-! Variable columns -/

theorem variableCount_le (h : Record.Header) : h.variableCount ≤ 128 := by
  have hlast := h.lastVariable.toNat_lt
  unfold Record.Header.variableCount
  omega

theorem variableStart_lt (h : Record.Header) : h.variableStart < 2 ^ 17 := by
  have hcount := variableCount_le h
  have hoffset : h.directoryStart < 2 ^ 16 := h.variableOffset.toNat_lt
  unfold Record.Header.variableStart
  omega

theorem variableStart_eq (h : Record.Header) : variableStart h = .ok h.variableStart := by
  have hcount := variableCount_le h
  have hstart : h.directoryStart + 2 * h.variableCount < 2 ^ 17 := variableStart_lt h
  rw [variableStart, mul_eq (by omega), ok_bind, add_eq (by omega)]
  rfl

theorem variableId_eq {index : Nat} (h : index < 128) :
    variableId index = .ok (Record.variableId index) := by
  rw [variableId, fit_eq (by omega), ok_bind, add_eq (by omega)]
  rfl

theorem position_lt (raw : UInt16) : (Record.VariableEnd.ofRaw raw).position < 2 ^ 15 := by
  change (raw &&& 0x7FFF).toNat < 2 ^ 15
  rw [Field.low15]
  exact Nat.mod_lt _ (by decide)

theorem decodes_variableValue (schema : Record.Schema) (record : Bytes) (h : Record.Header)
    {index previous : Nat} (hindex : index < 128) (hprevious : previous < 2 ^ 15) (last : Nat) :
    Decodes 0 (decodeVariableValue schema record h.variableStart index previous last)
      (Record.decodeVariableValue schema record h index previous last) := by
  have hstart := variableStart_lt h
  have hfirst : h.variableStart + previous < addressLimit := by
    unfold addressLimit
    omega
  unfold decodeVariableValue Record.decodeVariableValue
  split
  · exact .throw trivial
  refine .step (add_eq hfirst) (.read (safe_slice hfirst _ _) fun bytes _ => ?_)
  refine .step (variableId_eq hindex) ?_
  rcases schema.table.columns.byId? (Record.variableId index) with _ | c
  · exact .pure ()
  · exact decodes_plain c bytes

theorem decodes_variableFrom (schema : Record.Schema) (record : Bytes) (h : Record.Header)
    {remaining index previous : Nat} (hindex : index + remaining ≤ 128)
    (hprevious : previous < 2 ^ 15) :
    Decodes 0 (decodeVariableFrom schema record h h.variableStart remaining index previous)
      (Record.decodeVariableFrom schema record h remaining index previous) := by
  induction remaining generalizing index previous with
  | zero => exact .pure previous
  | succ remaining ih =>
    have hoffset : h.directoryStart < 2 ^ 16 := h.variableOffset.toNat_lt
    have hplace : h.directoryStart + 2 * index < addressLimit := by
      unfold addressLimit
      omega
    rw [decodeVariableFrom, Record.decodeVariableFrom]
    refine .step (mul_eq (by omega)) (.step (add_eq hplace) ?_)
    refine .read (safe_readU16 hplace _) fun raw _ => ?_
    have hleft : index + 1 + remaining ≤ 128 := by omega
    have hrest := ih hleft (position_lt raw)
    dsimp only
    split
    · exact hrest
    · exact (decodes_variableValue schema record h (by omega) hprevious _).after
        fun _ _ _ _ => hrest

theorem last_lt {schema : Record.Schema} {h : Record.Header} {last : Nat}
    {draft draft' : Record.Draft}
    (hd : Record.decodeVariableFrom schema record h h.variableCount 0 0 draft = .ok last draft') :
    last < 2 ^ 15 := by
  have hnone : Record.lastEnd record h 0 = .ok 0 := rfl
  have hlast := Record.lastEnd_decodeVariableFrom hnone hd
  rw [Nat.zero_add] at hlast
  generalize h.variableCount = count at hlast
  rcases count with _ | count
  · cases hlast
    decide
  · obtain ⟨raw, -, hlast⟩ := Outcome.of_bind_ok hlast
    cases hlast
    exact position_lt raw

theorem decodes_variable (schema : Record.Schema) (record : Bytes) (h : Record.Header) :
    Decodes 0 (decodeVariable schema record h) (Record.decodeVariable schema record h) := by
  have hcount : 0 + h.variableCount ≤ 128 := by
    rw [Nat.zero_add]
    exact variableCount_le h
  have hstart := variableStart_lt h
  have hnone : 0 < 2 ^ 15 := by decide
  refine .step (variableStart_eq h) ?_
  refine (decodes_variableFrom schema record h hcount hnone).after fun last _ _ hd => ?_
  have hlast := last_lt hd
  rw [add_eq (by omega)]
  exact .pure _

theorem taggedStart_lt {schema : Record.Schema} {h : Record.Header} {start : Nat}
    {draft draft' : Record.Draft}
    (hd : Record.decodeVariable schema record h draft = .ok start draft') : start < 2 ^ 18 := by
  have hstart := variableStart_lt h
  obtain ⟨last, _, hfrom, hd⟩ := Record.Decode.of_bind_ok hd
  have hlast := last_lt hfrom
  cases hd
  omega

/-! Tagged columns -/

theorem offset_lt (layout : Layout) (id raw : UInt16) :
    (Record.Slot.ofRaw layout id raw).offset < 2 ^ 16 := by
  unfold Record.Slot.ofRaw
  split <;> exact UInt16.toNat_lt _

theorem safe_readSlotsFrom (layout : Layout) (hrecord : record.length < bufferLimit) {start : Nat}
    (hstart : start < 2 ^ 18) (position : Nat) (limit : Option Nat) :
    Safe (readSlotsFrom layout record start position limit)
      (Record.readSlotsFrom layout record start position limit) := by
  induction hleft : record.length - position using Nat.strong_induction_on
    generalizing position limit with
  | _ left ih =>
    rw [readSlotsFrom, Record.readSlotsFrom]
    split
    · rename_i hmore
      have hsecond : position + 4 < addressLimit := by
        unfold bufferLimit at hrecord
        unfold addressLimit
        omega
      refine (safe_readU16 (by omega) _).bind fun id _ => ?_
      refine .step (add_eq (by unfold addressLimit at hsecond; omega)) ?_
      refine (safe_readU16 (by omega) _).bind fun raw _ => ?_
      have hoffset := offset_lt layout id raw
      refine .step (add_eq (by omega)) (.step (add_eq hsecond) ?_)
      refine (ih _ (by omega) _ _ rfl).bind fun slots _ => ?_
      exact .ok _
    · exact .ok []

theorem of_readSlotsFrom {layout : Layout} {start position : Nat} {limit : Option Nat}
    {slots : List Record.Slot}
    (h : Record.readSlotsFrom layout record start position limit = .ok slots) :
    slots.length ≤ record.length - position ∧ ∀ slot ∈ slots, slot.offset < 2 ^ 16 := by
  induction hleft : record.length - position using Nat.strong_induction_on
    generalizing position limit slots with
  | _ left ih =>
    rw [Record.readSlotsFrom] at h
    split at h
    · rename_i hmore
      obtain ⟨id, -, h⟩ := Outcome.of_bind_ok h
      obtain ⟨raw, -, h⟩ := Outcome.of_bind_ok h
      obtain ⟨rest, hrest, h⟩ := Outcome.of_bind_ok h
      cases h
      obtain ⟨hlength, hoffsets⟩ := ih _ (by omega) hrest rfl
      refine ⟨?_, fun slot hslot => ?_⟩
      · rw [List.length_cons]
        omega
      · rcases List.mem_cons.mp hslot with rfl | hslot
        · exact offset_lt layout id raw
        · exact hoffsets slot hslot
    · cases h
      exact ⟨Nat.zero_le _, by simp⟩

theorem decodes_content (c : Column) (compressed : Bool) {bytes : Bytes}
    (hbytes : bytes.length < bufferLimit) :
    Decodes 1 (insertContent c compressed bytes) (Record.insertContent c compressed bytes) := by
  unfold insertContent Record.insertContent
  split
  · refine .step (decodeCompressed_eq hbytes) ?_
    rcases Text.Compressed.decode bytes with _ | text
    · refine (Decodes.remark _).after fun _ _ _ _ => .step (classify_eq bytes) ?_
      refine (Decodes.remark _).after fun _ _ _ _ => ?_
      exact (Decodes.insert c _).after fun _ _ _ _ => .warn _
    · exact (Decodes.insert c _).mono (Nat.zero_le 1)
  · exact (decodes_plain c bytes).mono (Nat.zero_le 1)

def Buffered (longValues : LongValues) : Prop :=
  ∀ lid content, longValues.get? lid = some content → content.length < bufferLimit

theorem decodes_longValue (hlongValues : Buffered schema.longValues) (c : Column)
    (compressed : Bool) (reference : Bytes) :
    Decodes 1 (insertLongValue schema c compressed reference)
      (Record.insertLongValue schema c compressed reference) := by
  have hlid : Safe (Lid.ofReference reference) (Lid.ofReference reference) := by
    unfold Lid.ofReference
    split
    · exact .ok _
    · exact .error trivial
  refine .read hlid fun lid _ => ?_
  rcases hfound : schema.longValues.get? lid with _ | content
  · exact (Decodes.insert c _).after fun _ _ _ _ => .warn _
  · exact decodes_content c compressed (hlongValues lid content hfound)

theorem decodes_tagged (hlongValues : Buffered schema.longValues) (c : Column)
    (flags : Record.ValueFlags) {bytes : Bytes} (hbytes : bytes.length < bufferLimit) :
    Decodes 1 (insertTagged schema c flags bytes) (Record.insertTagged schema c flags bytes) := by
  unfold insertTagged Record.insertTagged
  split
  · exact .pure ()
  split
  · exact (Decodes.insert c _).after fun _ _ _ _ => .warn _
  split
  · exact decodes_longValue hlongValues c _ bytes
  · exact decodes_content c _ hbytes

theorem length_splitFlags_le (hasFlags : Bool) (bytes : Bytes) :
    (Record.splitFlags hasFlags bytes).2.length ≤ bytes.length := by
  unfold Record.splitFlags
  split
  · exact Nat.le_succ _
  · exact le_rfl

theorem decodes_slot (hlongValues : Buffered schema.longValues)
    (hrecord : record.length < bufferLimit) {start : Nat} (hstart : start < 2 ^ 18)
    {slot : Record.Slot} (hslot : slot.offset < 2 ^ 16) (last : Nat) :
    Decodes 1 (decodeSlot schema record start slot last)
      (Record.decodeSlot schema record start slot last) := by
  have hfirst : start + slot.offset < addressLimit := by
    unfold addressLimit
    omega
  unfold decodeSlot Record.decodeSlot
  refine .step (add_eq hfirst) ?_
  dsimp only
  split
  · exact .throw trivial
  refine .read (safe_slice hfirst _ _) fun bytes hslice => ?_
  have hbytes : bytes.length < bufferLimit := by
    obtain ⟨-, rfl⟩ := slice_eq_ok_iff.mp hslice
    rw [List.length_take, List.length_drop]
    omega
  rcases schema.table.columns.byId? slot.id.toUInt32 with _ | c
  · exact (Decodes.remark _).mono (Nat.zero_le 1)
  · exact decodes_tagged hlongValues c _
      (lt_of_le_of_lt (length_splitFlags_le slot.hasFlags bytes) hbytes)

theorem decodes_slots (hlongValues : Buffered schema.longValues)
    (hrecord : record.length < bufferLimit) {start : Nat} (hstart : start < 2 ^ 18)
    (slots : List Record.Slot) (hslots : ∀ slot ∈ slots, slot.offset < 2 ^ 16) :
    Decodes slots.length (decodeSlots schema record start slots)
      (Record.decodeSlots schema record start slots) := by
  induction slots with
  | nil => exact .pure ()
  | cons slot slots ih =>
    have hfirst := hslots slot List.mem_cons_self
    have hrest := ih fun next hnext => hslots next (List.mem_cons_of_mem _ hnext)
    rcases slots with _ | ⟨next, slots⟩
    · exact decodes_slot hlongValues hrecord hstart hfirst _
    · have hnext := hslots next (List.mem_cons_of_mem _ List.mem_cons_self)
      refine .step (add_eq (by omega)) ?_
      refine ((decodes_slot hlongValues hrecord hstart hfirst _).bind fun _ _ _ _ => hrest).mono ?_
      exact (Nat.add_comm 1 _).le

/-- A record is decoded without a fault, with fewer warnings than it has bytes. -/
theorem decodes_record (hlongValues : Buffered schema.longValues)
    (hrecord : record.length < bufferLimit) :
    Decodes record.length (decodeInto schema record) (Record.decodeInto schema record) := by
  have hheader : Safe (Record.Header.read record) (Record.Header.read record) := by
    refine (safe_readU8 (by decide) _).bind fun _ _ => ?_
    refine (safe_readU8 (by decide) _).bind fun _ _ => ?_
    exact (safe_readU16 (by decide) _).bind fun _ _ => .ok _
  refine .read hheader fun h _ => ?_
  refine (decodes_fixed hrecord schema h).after fun _ _ _ _ => ?_
  refine (decodes_variable schema record h).after fun start _ _ hd => ?_
  have hstart := taggedStart_lt hd
  refine .read (safe_readSlotsFrom schema.layout hrecord hstart start none) fun slots hslots => ?_
  obtain ⟨hlength, hoffsets⟩ := of_readSlotsFrom hslots
  exact (decodes_slots hlongValues hrecord hstart slots hoffsets).mono
    (hlength.trans (Nat.sub_le ..))

theorem safe_decode (hlongValues : Buffered schema.longValues)
    (hrecord : record.length < bufferLimit) :
    Safe (decode schema record) (Record.decode schema record) := by
  have h := decodes_record hlongValues hrecord {}
  unfold decode Record.decode
  generalize decodeInto schema record {} = checked at h ⊢
  generalize Record.decodeInto schema record {} = running at h ⊢
  rcases h with ⟨hrow⟩ | ⟨he, -⟩
  · obtain ⟨rfl, -⟩ := hrow
    exact .ok _
  · exact .error he

end

end Ese.Machine
