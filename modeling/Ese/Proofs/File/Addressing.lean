import Mathlib
import Ese.Proofs.Bytes.Span
import Ese.Proofs.Machine.Pages
/-!
Opening and addressing. Whether an image opens depends on two numbers of its header and on its
length; in an open file every page number has a block of its own, behind the blocks of the header,
and what can be read of it depends on how much of the block is there.
-/

namespace Ese

/-! Numbers at fixed places -/

/-- The number in the `width` bytes from `offset` on, the lowest byte first. -/
def numberAt (bytes : Bytes) (width offset : Nat) : Nat :=
  LittleEndian.decode ((bytes.drop offset).take width)

section

variable {bytes : Bytes} {width offset count : Nat}

theorem numberAt_lt (bytes : Bytes) (width offset : Nat) :
    numberAt bytes width offset < 256 ^ width := by
  refine (LittleEndian.decode_lt _).trans_le ?_
  apply Nat.pow_le_pow_right (by decide)
  exact List.length_take_le width _

theorem numberAt_take (h : offset + width ≤ count) :
    numberAt (bytes.take count) width offset = numberAt bytes width offset := by
  rw [numberAt, numberAt, List.drop_take, List.take_take, Nat.min_eq_left (by omega)]

theorem readNat_eq_numberAt (h : offset + width ≤ bytes.length) (part : Part) :
    readNat bytes width offset part = .ok (numberAt bytes width offset) := by
  have hslice : slice bytes offset width part = .ok ((bytes.drop offset).take width) :=
    slice_eq_ok_iff.mpr ⟨h, rfl⟩
  rw [readNat, hslice]
  rfl

theorem readU16_eq_numberAt (h : offset + 2 ≤ bytes.length) (part : Part) :
    readU16 bytes offset part = .ok (.ofNat (numberAt bytes 2 offset)) := by
  rw [readU16, readNat_eq_numberAt h]
  rfl

theorem readU32_eq_numberAt (h : offset + 4 ≤ bytes.length) (part : Part) :
    readU32 bytes offset part = .ok (.ofNat (numberAt bytes 4 offset)) := by
  rw [readU32, readNat_eq_numberAt h]
  rfl

theorem toNat_numberAt (bytes : Bytes) (offset : Nat) :
    (UInt32.ofNat (numberAt bytes 4 offset)).toNat = numberAt bytes 4 offset :=
  UInt32.toNat_ofNat_of_lt' (numberAt_lt bytes 4 offset)

end

theorem size_block (b : ByteArray) (offset count : Nat) :
    (block b offset count).size = min count (b.size - offset) := by
  have hlength := congrArg List.length (toList_block b offset count)
  rwa [List.length_take, List.length_drop] at hlength

namespace Page.Header

variable {bytes : Bytes}

def start (bytes : Bytes) : Header where
  previous := ⟨.ofNat (numberAt bytes 4 16)⟩
  next := ⟨.ofNat (numberAt bytes 4 20)⟩
  father := .ofNat (numberAt bytes 4 24)
  available := .ofNat (numberAt bytes 2 28)
  firstAvailable := .ofNat (numberAt bytes 2 32)
  tagCount := .ofNat (numberAt bytes 2 34)
  flags := .ofNat (numberAt bytes 4 36)

theorem read_eq_start (h : size ≤ bytes.length) : read bytes = .ok (start bytes) := by
  have hlong : 40 ≤ bytes.length := h
  have hslice : slice bytes 0 size .pageHeader = .ok ((bytes.drop 0).take size) :=
    slice_eq_ok_iff.mpr ⟨by rwa [Nat.zero_add], rfl⟩
  rw [read, hslice, readU32_eq_numberAt (by omega), readU32_eq_numberAt (by omega),
    readU32_eq_numberAt (by omega), readU16_eq_numberAt (by omega), readU16_eq_numberAt (by omega),
    readU16_eq_numberAt (by omega), readU32_eq_numberAt (by omega)]
  rfl

theorem exists_read_iff : (∃ header, read bytes = .ok header) ↔ size ≤ bytes.length := by
  constructor
  · rintro ⟨header, h⟩
    obtain ⟨head, hslice, -⟩ := Outcome.of_bind_ok h
    have hinside := (slice_eq_ok_iff.mp hslice).1
    rwa [Nat.zero_add] at hinside
  · intro h
    exact ⟨start bytes, read_eq_start h⟩

theorem start_take {count : Nat} (h : size ≤ count) : start (bytes.take count) = start bytes := by
  have hcount : 40 ≤ count := h
  rw [start, start, numberAt_take (by omega), numberAt_take (by omega), numberAt_take (by omega),
    numberAt_take (by omega), numberAt_take (by omega), numberAt_take (by omega),
    numberAt_take (by omega)]

end Page.Header

namespace File

/-! Opening -/

namespace Header

variable {bytes : Bytes}

structure Readable (bytes : Bytes) : Prop where
  long : 240 ≤ bytes.length
  signed : numberAt bytes 4 4 = 0x89ABCDEF
  supported : numberAt bytes 4 236 ∈ [4096, 8192, 16384, 32768]

theorem readable_take : Readable (bytes.take size) ↔ Readable bytes := by
  have hsignature : numberAt (bytes.take size) 4 4 = numberAt bytes 4 4 :=
    numberAt_take (by decide)
  have hpageSize : numberAt (bytes.take size) 4 236 = numberAt bytes 4 236 :=
    numberAt_take (by decide)
  have hlength : 240 ≤ (bytes.take size).length ↔ 240 ≤ bytes.length := by
    rw [List.length_take]
    exact le_min_iff.trans (and_iff_right le_rfl)
  constructor
  · rintro ⟨hlong, hsigned, hsupported⟩
    exact ⟨hlength.mp hlong, hsignature ▸ hsigned, hpageSize ▸ hsupported⟩
  · rintro ⟨hlong, hsigned, hsupported⟩
    exact ⟨hlength.mpr hlong, hsignature ▸ hsigned, hpageSize ▸ hsupported⟩

theorem eq_signature_iff (n : UInt32) : n = signature ↔ n.toNat = 0x89ABCDEF :=
  UInt32.toNat_inj.symm

theorem mem_pageSizes_iff (n : UInt32) :
    n ∈ pageSizes ↔ n.toNat ∈ [4096, 8192, 16384, 32768] := by
  rw [← List.mem_map_of_injective fun _ _ => UInt32.toNat_inj.mp]
  rfl

theorem readFields_eq (h : 240 ≤ bytes.length) (pageSize : UInt32) :
    ∃ header, readFields bytes pageSize = .ok header := by
  unfold readFields
  rw [readU32_eq_numberAt (by omega), readU32_eq_numberAt (by omega),
    readU32_eq_numberAt (by omega), readU32_eq_numberAt (by omega),
    readU32_eq_numberAt (by omega)]
  exact ⟨_, rfl⟩

/-- A header that can be read tells the page size. -/
theorem read_of_readable (h : Readable bytes) :
    ∃ header, read bytes = .ok header ∧ header.layout.pageSize = numberAt bytes 4 236 := by
  have hlong := h.long
  have hsize : ¬ ByteSource.size bytes < size := not_lt.mpr hlong
  have hsigned := (eq_signature_iff _).mpr ((toNat_numberAt bytes 4).trans h.signed)
  have hsupported : UInt32.ofNat (numberAt bytes 4 236) ∈ pageSizes := by
    rw [mem_pageSizes_iff, toNat_numberAt]
    exact h.supported
  obtain ⟨header, hfields⟩ := readFields_eq hlong (.ofNat (numberAt bytes 4 236))
  refine ⟨header, ?_, ?_⟩
  · rw [read, if_neg hsize, readU32_eq_numberAt (by omega), readU32_eq_numberAt (by omega), hsigned]
    simp only [bind, Except.bind, ne_eq, not_true_eq_false, ↓reduceIte, hsupported, hfields]
  · rw [layout, of_readFields hfields]
    exact toNat_numberAt bytes 236

/-- Anything else is not the header of a database. -/
theorem read_of_not_readable (h : ¬ Readable bytes) :
    ∃ cause, read bytes = .error (.format cause) := by
  unfold read
  split
  · exact ⟨_, rfl⟩
  rename_i hsize
  have hlong : 240 ≤ bytes.length := not_lt.mp hsize
  rw [readU32_eq_numberAt (by omega), readU32_eq_numberAt (by omega)]
  simp only [bind, Except.bind]
  split
  · exact ⟨_, rfl⟩
  rename_i hsigned
  split
  · rename_i hsupported
    rw [not_ne_iff, eq_signature_iff, toNat_numberAt] at hsigned
    rw [mem_pageSizes_iff, toNat_numberAt] at hsupported
    exact absurd ⟨hlong, hsigned, hsupported⟩ h
  · exact ⟨_, rfl⟩

end Header

/-- The image of a database: a header that can be read, and room for it and for its copy. -/
structure Openable (bytes : Bytes) : Prop extends Header.Readable bytes where
  roomy : 2 * numberAt bytes 4 236 ≤ bytes.length

section

variable {source : ByteArray} {file : File} {id : PageId} {page : Page}

theorem read_front (source : ByteArray) :
    ByteSource.read source 0 Header.size = source.data.toList.take Header.size :=
  ByteSource.read_eq source 0 Header.size

theorem ofBytes_of_openable (h : Openable source.data.toList) :
    ∃ file, ofBytes source = .ok file ∧ file.pageSize = numberAt source.data.toList 4 236 := by
  obtain ⟨header, hread, hsize⟩ :=
    Header.read_of_readable (Header.readable_take.mpr h.toReadable)
  rw [numberAt_take (by decide)] at hsize
  have hroomy : ¬ ByteSource.size source < 2 * header.layout.pageSize := by
    rw [hsize]
    exact not_lt.mpr h.roomy
  refine ⟨⟨source, header⟩, ?_, hsize⟩
  rw [ofBytes, read_front, hread]
  simp only [bind, Except.bind, if_neg hroomy]

theorem ofBytes_of_not_openable (h : ¬ Openable source.data.toList) :
    ∃ cause, ofBytes source = .error (.format cause) := by
  unfold ofBytes
  rw [read_front]
  by_cases hreadable : Header.Readable source.data.toList
  · obtain ⟨header, hread, hsize⟩ := Header.read_of_readable (Header.readable_take.mpr hreadable)
    rw [numberAt_take (by decide)] at hsize
    have hshort : ByteSource.size source < 2 * header.layout.pageSize := by
      rw [hsize]
      exact not_le.mp fun hroomy => h ⟨hreadable, hroomy⟩
    rw [hread]
    simp only [bind, Except.bind, if_pos hshort]
    exact ⟨_, rfl⟩
  · obtain ⟨cause, hread⟩ :=
      Header.read_of_not_readable (mt Header.readable_take.mp hreadable)
    rw [hread]
    exact ⟨cause, rfl⟩

/-! Addressing -/

def span (file : File) (id : PageId) : Span :=
  ⟨file.pageOffset id, file.pageOffset id + file.pageSize⟩

def headers (file : File) : Span := ⟨0, 2 * file.pageSize⟩

theorem of_span (file : File) (id : PageId) (bytes : Bytes) :
    (file.span id).of bytes = (bytes.drop (file.pageOffset id)).take file.pageSize := by
  rw [Span.of, span, Nat.add_sub_cancel_left]

theorem before_of_lt {other : PageId} (h : id.value.toNat < other.value.toNat) :
    (file.span id).Before (file.span other) := by
  change (id.value.toNat + 1) * file.pageSize + file.pageSize ≤
    (other.value.toNat + 1) * file.pageSize
  rw [← Nat.succ_mul]
  apply Nat.mul_le_mul_right
  omega

theorem apart {other : PageId} (h : id ≠ other) :
    (file.span id).Before (file.span other) ∨ (file.span other).Before (file.span id) := by
  have hvalue : id.value.toNat ≠ other.value.toNat := by
    intro hsame
    exact h (congrArg PageId.mk (UInt32.toNat_inj.mp hsame))
  rcases Nat.lt_or_gt_of_ne hvalue with hlt | hgt
  · exact Or.inl (before_of_lt hlt)
  · exact Or.inr (before_of_lt hgt)

theorem headers_before (h : 1 ≤ id.value.toNat) : file.headers.Before (file.span id) := by
  change 2 * file.pageSize ≤ (id.value.toNat + 1) * file.pageSize
  apply Nat.mul_le_mul_right
  omega

/-- The whole blocks behind the header and its copy are the pages of the count. -/
theorem span_le_iff (hsize : 0 < file.pageSize) (hroomy : 2 * file.pageSize ≤ file.size) :
    file.pageOffset id + file.pageSize ≤ file.size ↔ id.value.toNat ≤ file.pageCount := by
  have htwo : 2 ≤ file.size / file.pageSize := (Nat.le_div_iff_mul_le hsize).mpr hroomy
  change (id.value.toNat + 1) * file.pageSize + file.pageSize ≤ file.size ↔
    id.value.toNat ≤ file.size / file.pageSize - 2
  rw [← Nat.succ_mul, ← Nat.le_div_iff_mul_le hsize]
  omega

/-- A page whose block is there is that block, and its header is the start of it. -/
theorem readPage_of_le (hheader : Page.Header.size ≤ file.pageSize)
    (h : file.pageOffset id + file.pageSize ≤ file.size) :
    file.readPage id = .ok {
      id
      header := .start ((file.span id).of file.source.data.toList)
      layout := file.layout
      data := block file.source (file.pageOffset id) file.pageSize } := by
  have hinside : file.pageOffset id + file.pageSize ≤ file.source.size := h
  have hlength := size_block file.source (file.pageOffset id) file.pageSize
  rw [Nat.min_eq_left (by omega)] at hlength
  have hread : Page.Header.read (block file.source (file.pageOffset id) file.pageSize) =
      .ok (.start ((file.span id).of file.source.data.toList)) := by
    have hlong : Page.Header.size ≤
        (block file.source (file.pageOffset id) file.pageSize).data.toList.length :=
      hheader.trans_eq hlength.symm
    rw [Page.Header.read_toBytes]
    change Page.Header.read (block file.source (file.pageOffset id) file.pageSize).data.toList = _
    rw [Page.Header.read_eq_start hlong, toList_block, of_span]
  unfold readPage
  dsimp only
  rw [if_neg (by omega), Page.ofBlock, hread]
  rfl

/-- The error says how much of the block is there. -/
theorem readPage_of_lt (hsize : 0 < file.pageSize)
    (h : file.size < file.pageOffset id + file.pageSize) :
    file.readPage id = .error (.truncated .page (file.pageOffset id) file.pageSize
      (file.size - file.pageOffset id)) := by
  have hlength : (block file.source (file.pageOffset id) file.pageSize).size =
      min file.pageSize (file.size - file.pageOffset id) := size_block ..
  unfold readPage
  dsimp only
  rw [hlength, Nat.min_eq_right (by omega), if_pos (by omega)]

theorem readPageHeader_eq (file : File) (id : PageId) : file.readPageHeader id =
    Page.Header.read ((file.source.data.toList.drop (file.pageOffset id)).take Page.Header.size) :=
  congrArg Page.Header.read (ByteSource.read_eq file.source _ _)

theorem exists_readPageHeader_iff : (∃ header, file.readPageHeader id = .ok header) ↔
    file.pageOffset id + Page.Header.size ≤ file.size := by
  rw [readPageHeader_eq, Page.Header.exists_read_iff, List.length_take, List.length_drop]
  change Page.Header.size ≤ min Page.Header.size (file.size - file.pageOffset id) ↔ _
  have hsize : Page.Header.size = 40 := rfl
  omega

/-- Both ways of reading a header agree. -/
theorem readPageHeader_of_readPage (hheader : Page.Header.size ≤ file.pageSize)
    (h : file.pageOffset id + file.pageSize ≤ file.size) :
    file.readPageHeader id = .ok (.start ((file.span id).of file.source.data.toList)) := by
  have hlong : Page.Header.size ≤
      ((file.source.data.toList.drop (file.pageOffset id)).take Page.Header.size).length := by
    rw [List.length_take, List.length_drop]
    change Page.Header.size ≤ min Page.Header.size (file.size - file.pageOffset id)
    omega
  rw [readPageHeader_eq, Page.Header.read_eq_start hlong, Page.Header.start_take le_rfl, of_span,
    Page.Header.start_take hheader]

/-- Where the pages of an open file are, and what can be read of them. -/
structure Addressed (source : ByteArray) (file : File) : Prop where
  opened : file.source = source
  pageSize : file.pageSize = numberAt source.data.toList 4 236
  offset : ∀ id, file.pageOffset id = (id.value.toNat + 1) * file.pageSize ∧
    Machine.pageOffset file id = .ok (file.pageOffset id)
  apart : ∀ id other, id ≠ other →
    (file.span id).Before (file.span other) ∨ (file.span other).Before (file.span id)
  behind : ∀ id, 1 ≤ id.value.toNat → file.headers.Before (file.span id)
  readable : ∀ id, (∃ page, file.readPage id = .ok page) ↔ id.value.toNat ≤ file.pageCount
  whole : ∀ id page, file.readPage id = .ok page → page.id = id ∧
    page.data.size = file.pageSize ∧
    page.data.data.toList = (file.span id).of source.data.toList ∧
    file.readPageHeader id = .ok page.header
  cut : ∀ id, file.pageCount < id.value.toNat → file.readPage id =
    .error (.truncated .page (file.pageOffset id) file.pageSize
      (source.size - file.pageOffset id))
  header : ∀ id, (∃ header, file.readPageHeader id = .ok header) ↔
    (id.value.toNat + 1) * file.pageSize + 40 ≤ source.size

theorem addressed_of_ofBytes (h : ofBytes source = .ok file)
    (hpageSize : file.pageSize = numberAt source.data.toList 4 236) : Addressed source file := by
  obtain ⟨rfl, hsupported, hroomy⟩ := of_ofBytes h
  have hbounds : 4096 ≤ file.pageSize ∧ _ := hsupported.bounds
  have hsize : 0 < file.pageSize := by omega
  have hheader : Page.Header.size ≤ file.pageSize := le_trans (by decide) hbounds.1
  have hwhole : ∀ id, file.pageOffset id + file.pageSize ≤ file.size ↔
      id.value.toNat ≤ file.pageCount := fun id => span_le_iff hsize hroomy
  refine {
    opened := rfl
    pageSize := hpageSize
    offset := fun id => ⟨rfl, Machine.pageOffset_eq hsupported id⟩
    apart := fun id other => File.apart
    behind := fun id => headers_before
    readable := fun id => ⟨?_, ?_⟩
    whole := fun id page hread => ?_
    cut := fun id hlt => ?_
    header := fun id => exists_readPageHeader_iff }
  · rintro ⟨page, hread⟩
    exact le_pageCount hsize hread
  · intro hle
    exact ⟨_, readPage_of_le hheader ((hwhole id).mpr hle)⟩
  · have hinside := (hwhole id).mpr (le_pageCount hsize hread)
    rw [readPage_of_le hheader hinside] at hread
    cases hread
    refine ⟨rfl, ?_, ?_, readPageHeader_of_readPage hheader hinside⟩
    · rw [size_block]
      change min file.pageSize (file.size - file.pageOffset id) = file.pageSize
      omega
    · rw [toList_block, of_span]
  · apply readPage_of_lt hsize
    exact not_le.mp fun hinside => absurd ((hwhole id).mp hinside) (not_le.mpr hlt)

/-- An image opens if it is that of a database, and is refused for its format if not; an open file
has a block for every page number. -/
theorem addressing (source : ByteArray) :
    ((∃ file, ofBytes source = .ok file) ↔ Openable source.data.toList) ∧
    (¬ Openable source.data.toList → ∃ cause, ofBytes source = .error (.format cause)) ∧
    ∀ file, ofBytes source = .ok file → Addressed source file := by
  refine ⟨⟨?_, ?_⟩, ofBytes_of_not_openable, ?_⟩
  · rintro ⟨file, hopen⟩
    by_contra hrefused
    obtain ⟨cause, herror⟩ := ofBytes_of_not_openable hrefused
    rw [hopen] at herror
    cases herror
  · intro h
    obtain ⟨file, hopen, -⟩ := ofBytes_of_openable h
    exact ⟨file, hopen⟩
  · intro file hopen
    by_cases h : Openable source.data.toList
    · obtain ⟨same, hsame, hpageSize⟩ := ofBytes_of_openable h
      obtain rfl : same = file := Except.ok.inj (hsame.symm.trans hopen)
      exact addressed_of_ofBytes hopen hpageSize
    · obtain ⟨cause, herror⟩ := ofBytes_of_not_openable h
      rw [hopen] at herror
      cases herror

end

/-- The fields of a header that an image is opened by, with a page size of 4096. -/
def bareFields : Bytes :=
  List.replicate 4 0 ++ [0xEF, 0xCD, 0xAB, 0x89] ++ List.replicate 228 0 ++ [0, 0x10, 0, 0]

/-- Three blocks, and a hundred bytes of the next one. -/
def bareImage : ByteArray := ⟨(bareFields ++ List.replicate 12148 0).toArray⟩

theorem numberAt_bareImage {offset : Nat} (h : offset + 4 ≤ bareFields.length) :
    numberAt bareImage.data.toList 4 offset = numberAt bareFields 4 offset := by
  have hfront : bareImage.data.toList.take bareFields.length = bareFields := List.take_left
  rw [← numberAt_take h, hfront]

/-- The header of a page that is not there as a whole can be there all the same. -/
theorem addressing_partial : ∃ file, ofBytes bareImage = .ok file ∧ file.pageSize = 4096 ∧
    file.readPage ⟨2⟩ = .error (.truncated .page 12288 4096 100) ∧
    ∃ header, file.readPageHeader ⟨2⟩ = .ok header := by
  obtain ⟨hopens, -, haddressed⟩ := addressing bareImage
  have hlength : bareImage.data.toList.length = 12388 := by
    change (bareFields ++ List.replicate 12148 0).length = 12388
    rw [List.length_append, List.length_replicate]
    rfl
  have hsize : bareImage.size = 12388 := hlength
  have hpageSize : numberAt bareImage.data.toList 4 236 = 4096 :=
    numberAt_bareImage (by decide +kernel)
  obtain ⟨file, hopen⟩ := hopens.mpr {
    long := by rw [hlength]; decide
    signed := numberAt_bareImage (by decide +kernel)
    supported := by rw [hpageSize]; decide
    roomy := by rw [hpageSize, hlength]; decide }
  have h := haddressed file hopen
  have hfile : file.pageSize = 4096 := h.pageSize.trans hpageSize
  have hoffset : file.pageOffset ⟨2⟩ = 12288 := by rw [(h.offset ⟨2⟩).1, hfile]; rfl
  have hcount : file.pageCount = 1 := by
    change file.source.size / file.pageSize - 2 = 1
    rw [h.opened, hfile, hsize]
  refine ⟨file, hopen, hfile, ?_, (h.header ⟨2⟩).mpr ?_⟩
  · rw [h.cut ⟨2⟩ (by rw [hcount]; decide), hoffset, hfile, hsize]
  · rw [hfile, hsize]
    decide

end File

end Ese
