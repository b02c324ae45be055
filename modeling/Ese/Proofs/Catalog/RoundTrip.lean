import Mathlib
import Ese.Build.CatalogRecord
import Ese.Proofs.Bytes.Field
import Ese.Proofs.Bytes.Segment
/-!
Catalog records round trip. A record that was written gives back its seven numbers and its name, if
the name is ASCII and has no padding of its own, and the fields make the entry of their kind.
-/

namespace Ese

namespace Text

/-- ASCII text that does not end in padding. -/
structure Plain (text : String) : Prop where
  ascii : ∀ c ∈ text.toList, c.toNat < 0x80
  unpadded : text.toList.getLast? ≠ some '\x00'

theorem utf8_of_ascii {text : String} (h : ∀ c ∈ text.toList, c.toNat < 0x80) :
    Build.utf8 text = text.toList.map fun c => UInt8.ofNat c.toNat := by
  have hchars : ∀ cs : List Char, (∀ c ∈ cs, c.toNat < 0x80) →
      cs.flatMap String.utf8EncodeChar = cs.map fun c => UInt8.ofNat c.toNat := by
    intro cs
    induction cs with
    | nil => intro _; rfl
    | cons c cs ih =>
      intro h
      have hc : c.val.toNat < 0x80 := h c List.mem_cons_self
      have hsize : c.utf8Size = 1 := by
        rw [Char.utf8Size_eq_one_iff, UInt32.le_iff_toNat_le]
        exact Nat.le_of_lt_succ hc
      rw [List.flatMap_cons, String.utf8EncodeChar_eq_singleton hsize, List.map_cons,
        ih fun d hd => h d (List.mem_cons_of_mem _ hd)]
      rfl
  rw [← hchars _ h]
  change text.toByteArray.data.toList = _
  rw [← String.utf8Encode_toList, List.utf8Encode, List.toList_data_toByteArray]

theorem decodeByte_ofNat {c : Char} (h : c.toNat < 0x80) :
    Windows1252.decodeByte (UInt8.ofNat c.toNat) = c := by
  have hn : (UInt8.ofNat c.toNat).toNat = c.toNat := Field.toNat_ofNat8 (by omega)
  have hlt : UInt8.ofNat c.toNat < 0x80 := by
    rw [UInt8.lt_iff_toNat_lt, hn]
    exact h
  rw [Windows1252.decodeByte_of_lt hlt, hn, Char.ofNat_toNat]

theorem dropTrailingNuls_eq {text : List Char} (h : text.getLast? ≠ some '\x00') :
    dropTrailingNuls text = text := by
  unfold dropTrailingNuls
  rw [List.getLast?_eq_head?_reverse] at h
  cases hr : text.reverse with
  | nil =>
    obtain rfl := List.reverse_eq_nil_iff.mp hr
    rfl
  | cons c rest =>
    rw [hr] at h
    have hc : (c == '\x00') = false := by simpa using h
    rw [List.dropWhile_cons_of_neg (by simp [hc]), ← hr, List.reverse_reverse]

theorem decodeCodePage_utf8 {text : String} (h : Plain text) {codePage : UInt32}
    (hcode : codePage ≠ unicodeCodePage) :
    decodeCodePage (Build.utf8 text) codePage = text := by
  have hdecode : Windows1252.decode (Build.utf8 text) = text.toList := by
    rw [utf8_of_ascii h.ascii, Windows1252.decode, List.map_map]
    conv => rhs; rw [← List.map_id text.toList]
    exact List.map_congr_left fun c hc => decodeByte_ofNat (h.ascii c hc)
  rw [decodeCodePage, if_neg hcode, hdecode, dropTrailingNuls_eq h.unpadded, String.ofList_toList]

end Text

namespace Catalog

open Build

section

variable {objectId identifier typeOrRoot width flags codePageOrLocale : UInt32} {kind : UInt16}
  {name : String} {record : Bytes}

theorem catalogRecord_eq : catalogRecord objectId kind identifier typeOrRoot width flags
    codePageOrLocale name =
      7 :: 128 :: (LittleEndian.encode 2 31 ++ (LittleEndian.encode 4 objectId.toNat ++
        (LittleEndian.encode 2 kind.toNat ++ (LittleEndian.encode 4 identifier.toNat ++
        (LittleEndian.encode 4 typeOrRoot.toNat ++ (LittleEndian.encode 4 width.toNat ++
        (LittleEndian.encode 4 flags.toNat ++ (LittleEndian.encode 4 codePageOrLocale.toNat ++
        (0 :: (LittleEndian.encode 2 (utf8 name).length ++ utf8 name)))))))))) := by
  simp [catalogRecord, catalogRecordBytes, Record.encode, Record.variableOffset, Record.fixedData,
    Record.bitmapLength, Record.bitmap, Record.bitmapByte, Record.variableDirectory,
    Record.variableData, Record.taggedArea, Record.taggedDirectory]

/-- A name is read back from behind the fixed columns. -/
theorem itemName_catalogRecord (hname : Text.Plain name) (hlen : (utf8 name).length ≤ 0x7FFF)
    (h : Segment record 0 (catalogRecord objectId kind identifier typeOrRoot width flags
      codePageOrLocale name)) : itemName record = .ok name := by
  rw [catalogRecord_eq] at h
  have hoffset := h.tail.tail
  have hfixed := hoffset.after 4 rfl
  have hnumbers := ((((((hfixed.after 8 rfl).after 10 rfl).after 14 rfl).after 18 rfl).after 22
    rfl).after 26 rfl).after 30 rfl
  have hdirectory := hnumbers.tail
  have hbytes := hdirectory.after 33 rfl
  have hlength : (UInt16.ofNat (utf8 name).length &&& 0x7FFF).toNat = (utf8 name).length := by
    rw [Field.low15, Field.toNat_ofNat (by omega)]
    omega
  have hslice := hbytes.slice_eq .catalogItemName hlength
  have hplace : (UInt16.ofNat 31).toNat = 31 := rfl
  have hstart : 31 + 2 * directoryLength (UInt8.toNat 128) = 33 := rfl
  rw [itemName, h.tail.head.readU8_eq, hoffset.left.readU16_eq]
  simp only [bind, Except.bind, hplace, hstart, hdirectory.left.readU16_eq, hslice]
  exact congrArg Except.ok (Text.decodeCodePage_utf8 hname (by decide))

/-- The fields of a record that was written, whatever follows it. -/
theorem read_catalogRecord (hname : Text.Plain name) (hlen : (utf8 name).length ≤ 0x7FFF)
    (h : Segment record 0 (catalogRecord objectId kind identifier typeOrRoot width flags
      codePageOrLocale name)) :
    Fields.read record =
      .ok ⟨objectId, kind, identifier, typeOrRoot, width, flags, codePageOrLocale, name⟩ := by
  have hitem := itemName_catalogRecord hname hlen h
  rw [catalogRecord_eq] at h
  have hobject := h.tail.tail.after 4 rfl
  have hkind := hobject.after 8 rfl
  have hidentifier := hkind.after 10 rfl
  have htype := hidentifier.after 14 rfl
  have hwidth := htype.after 18 rfl
  have hflags := hwidth.after 22 rfl
  have hpage := hflags.after 26 rfl
  rw [Fields.read, hobject.left.readU32_eq, hkind.left.readU16_eq, hidentifier.left.readU32_eq,
    htype.left.readU32_eq, hwidth.left.readU32_eq, hflags.left.readU32_eq, hpage.left.readU32_eq,
    hitem]
  simp only [bind, Except.bind, Pure.pure, Except.pure, UInt32.ofNat_toNat, UInt16.ofNat_toNat]

/-- The record decodes to the entry that its fields describe. -/
theorem decode_catalogRecord (hname : Text.Plain name) (hlen : (utf8 name).length ≤ 0x7FFF)
    (h : Segment record 0 (catalogRecord objectId kind identifier typeOrRoot width flags
      codePageOrLocale name)) :
    Entry.decode record = Fields.entry
      ⟨objectId, kind, identifier, typeOrRoot, width, flags, codePageOrLocale, name⟩ := by
  rw [Entry.decode, read_catalogRecord hname hlen h]
  rfl

end

/-- What a record with these fields has to be read as: the item of its kind with the fields that
such an item has, and a complaint about the schema for a kind that there is no item for. -/
inductive Denotes (f : Fields) : Except DecodeError Entry → Prop where
  | table (kind : f.kind = 1) : Denotes f (.ok (.table f.name f.objectId ⟨f.typeOrRoot⟩))
  | column (kind : f.kind = 2) : Denotes f (.ok (.column f.objectId {
      id := f.identifier
      name := f.name
      type := .ofCode f.typeOrRoot
      width := f.width
      flags := f.flags
      codePage := f.codePageOrLocale }))
  | index (kind : f.kind = 3) : Denotes f (.ok (.index f.objectId {
      name := f.name
      root := ⟨f.typeOrRoot⟩
      locale := f.codePageOrLocale }))
  | longValue (kind : f.kind = 4) : Denotes f (.ok (.longValue f.objectId {
      name := f.name
      root := ⟨f.typeOrRoot⟩ }))
  | callback (kind : f.kind = 5) : Denotes f (.ok (.callback f.name))
  | unknown (kind : f.kind ∉ [1, 2, 3, 4, 5]) :
      Denotes f (.error (.schema (.unknownRecordType f.kind f.name)))

/-- The kind decides alone: every record has one reading. -/
theorem entry_eq_iff {f : Fields} {answer : Except DecodeError Entry} :
    f.entry = answer ↔ Denotes f answer := by
  constructor
  · rintro rfl
    unfold Fields.entry
    split_ifs with htable hcolumn hindex hlong hcallback
    · exact .table htable
    · exact .column hcolumn
    · exact .index hindex
    · exact .longValue hlong
    · exact .callback hcallback
    · apply Denotes.unknown
      simp [htable, hcolumn, hindex, hlong, hcallback]
  · intro h
    cases h with
    | unknown kind =>
      simp only [List.mem_cons, List.not_mem_nil, or_false, not_or] at kind
      obtain ⟨htable, hcolumn, hindex, hlong, hcallback⟩ := kind
      rw [Fields.entry, if_neg htable, if_neg hcolumn, if_neg hindex, if_neg hlong,
        if_neg hcallback]
    | _ kind => simp [Fields.entry, kind]

/-- A written record is read as the item that its kind denotes, with the numbers and the name that
went in, and so is any longer record that starts with it. -/
theorem denotes_written (objectId identifier typeOrRoot width flags codePageOrLocale : UInt32)
    (kind : UInt16) {name : String} (hname : Text.Plain name)
    (hlen : (utf8 name).length ≤ 0x7FFF) (rest : Bytes) (answer : Except DecodeError Entry) :
    Entry.decode (catalogRecord objectId kind identifier typeOrRoot width flags codePageOrLocale
        name ++ rest) = answer ↔
      Denotes ⟨objectId, kind, identifier, typeOrRoot, width, flags, codePageOrLocale, name⟩
        answer := by
  rw [decode_catalogRecord hname hlen (Segment.left (Segment.whole _))]
  exact entry_eq_iff

/-- A name with a NUL inside it, numbers at their bounds, and the start of another record behind
this one. -/
theorem denotes_written_column :
    Entry.decode (catalogRecord 0xFFFFFFFF 2 0 0xFFFFFFFF 0xFFFFFFFF 0 1252 "a\x00b" ++ [7, 128]) =
      .ok (.column 0xFFFFFFFF ⟨0, "a\x00b", .ofCode 0xFFFFFFFF, 0xFFFFFFFF, 0, 1252⟩) := by
  have hascii : ∀ c ∈ "a\x00b".toList, c.toNat < 0x80 := by simp
  have hlen : (utf8 "a\x00b").length ≤ 0x7FFF := by
    rw [Text.utf8_of_ascii hascii]
    decide
  apply (denotes_written 0xFFFFFFFF 0 0xFFFFFFFF 0xFFFFFFFF 0 1252 2 ⟨hascii, by decide⟩ hlen
    [7, 128] _).mpr
  exact Denotes.column rfl

end Catalog

end Ese
