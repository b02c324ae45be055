import Mathlib
import Ese.Proofs.Bytes.Field
import Ese.Proofs.File.Bounds
import Ese.Proofs.Machine.Operations
/-!
Files, pages and entries, read with checked operations. The offsets are small because the page size
is one of a few and page numbers have 32 bits; within a page all sizes and offsets have 15 bits.
-/

namespace Ese.Machine

/-! Bytes of an image -/

/-- Writes over the first `count` bytes of a buffer with as many others. -/
def overwrite (buffer bytes : Bytes) (count : Nat) : Except DecodeError Bytes := do
  let front ← between buffer 0 count
  if front.length = bytes.length then .ok (bytes ++ buffer.drop count)
  else .error (.fault (.outside bytes.length front.length))

/-- Fills a buffer with the bytes from `offset` on, as far as there are any. The answer is the
buffer and how much of it is filled. -/
def readAt (source : ByteArray) (buffer : Bytes) (offset : Nat) :
    Except DecodeError (Bytes × Nat) := do
  let start := min offset source.size
  let left ← sub source.size start
  let count := min buffer.length left
  let stop ← add 64 start count
  let bytes ← between source.data.toList start stop
  let buffer ← overwrite buffer bytes count
  return (buffer, count)

def ofBytes (source : ByteArray) : Except DecodeError File := do
  let (buffer, count) ← readAt source (List.replicate File.Header.size 0) 0
  let bytes ← between buffer 0 count
  let header ← File.Header.read bytes
  let headers ← mul 64 2 header.layout.pageSize
  if source.size < headers then
    .error (.format (.missingHeaderPages source.size header.layout.pageSize))
  else .ok { source, header }

def pageCount (file : File) : Except DecodeError Nat := do
  let blocks ← div file.size file.pageSize
  return blocks - 2

def pageOffset (file : File) (id : PageId) : Except DecodeError Nat := do
  let block ← add 64 id.value.toNat 1
  mul 64 block file.pageSize

def readPage (file : File) (id : PageId) : Except DecodeError Page := do
  let offset ← pageOffset file id
  let (buffer, count) ← readAt file.source (List.replicate file.pageSize 0) offset
  if count < file.pageSize then .error (.truncated .page offset file.pageSize count)
  else Page.ofBlock id file.layout ⟨buffer.toArray⟩

def readPageHeader (file : File) (id : PageId) : Except DecodeError Page.Header := do
  let offset ← pageOffset file id
  let (buffer, count) ← readAt file.source (List.replicate Page.Header.size 0) offset
  let bytes ← between buffer 0 count
  Page.Header.read bytes

section

variable {source : ByteArray} {file : File} {buffer bytes : Bytes} {offset : Nat} {id : PageId}

theorem length_read (source : ByteArray) (offset count : Nat) :
    (ByteSource.read source offset count).length = min count (source.size - offset) := by
  rw [ByteSource.read_eq, List.length_take, List.length_drop]
  rfl

theorem overwrite_eq (h : bytes.length ≤ buffer.length) :
    overwrite buffer bytes bytes.length = .ok (bytes ++ buffer.drop bytes.length) := by
  rw [overwrite, between_eq (Nat.zero_le _) h, ok_bind, if_pos]
  rw [List.drop_zero, List.length_take, Nat.sub_zero, Nat.min_eq_left h]

/-- A positional read is a read of the source, and the rest of the buffer stays as it was. -/
theorem readAt_eq (source : ByteArray) (h : offset + buffer.length < addressLimit) :
    readAt source buffer offset =
      .ok (ByteSource.read source offset buffer.length ++
          buffer.drop (ByteSource.read source offset buffer.length).length,
        (ByteSource.read source offset buffer.length).length) := by
  have hlength := length_read source offset buffer.length
  have hpiece := ByteSource.read_eq source offset buffer.length
  generalize ByteSource.read source offset buffer.length = piece at hlength hpiece ⊢
  have hcount : min buffer.length (source.size - min offset source.size) = piece.length := by
    omega
  have hword : min offset source.size + piece.length < 2 ^ 64 := by
    unfold addressLimit at h
    omega
  have hstop : min offset source.size + piece.length ≤ source.data.toList.length := by
    change _ ≤ source.size
    omega
  have htaken : (source.data.toList.drop (min offset source.size)).take piece.length = piece := by
    by_cases hinside : offset ≤ source.size
    · have hleft : (source.data.toList.drop offset).length = source.size - offset :=
        List.length_drop
      rw [hlength, Nat.min_eq_left hinside, ← hleft, ← List.take_eq_take_min]
      exact hpiece.symm
    · have hnone : piece.length = 0 := by omega
      rw [hnone, List.take_zero, List.eq_nil_of_length_eq_zero hnone]
  unfold readAt
  dsimp only
  rw [sub_eq (min_le_right ..), ok_bind, hcount, add_eq hword, ok_bind,
    between_eq (Nat.le_add_right ..) hstop, ok_bind, Nat.add_sub_cancel_left, htaken,
    overwrite_eq (by omega), ok_bind]
  rfl

theorem between_filled (bytes rest : Bytes) :
    between (bytes ++ rest) 0 bytes.length = .ok bytes := by
  rw [between_eq (Nat.zero_le _) (by simp), List.drop_zero, Nat.sub_zero, List.take_left]

/-! Files -/

theorem safe_fileHeader (bytes : Bytes) :
    Safe (File.Header.read bytes) (File.Header.read bytes) := by
  have hword : ∀ offset < 240, ∀ part,
      Safe (readU32 bytes offset part) (readU32 bytes offset part) :=
    fun offset hoffset part => safe_readU32 (hoffset.trans (by decide)) part
  unfold File.Header.read
  split
  · exact .error trivial
  refine (hword 4 (by decide) _).bind fun found _ => ?_
  split
  · exact .error trivial
  refine (hword 236 (by decide) _).bind fun pageSize _ => ?_
  split
  · unfold File.Header.readFields
    refine (hword 0 (by decide) _).bind fun _ _ => ?_
    refine (hword 8 (by decide) _).bind fun _ _ => ?_
    refine (hword 12 (by decide) _).bind fun _ _ => ?_
    refine (hword 52 (by decide) _).bind fun _ _ => ?_
    refine (hword 232 (by decide) _).bind fun _ _ => ?_
    exact .ok _
  · exact .error trivial

theorem safe_ofBytes (source : ByteArray) : Safe (ofBytes source) (File.ofBytes source) := by
  have hheader : 0 + (List.replicate File.Header.size (0 : UInt8)).length < addressLimit := by
    rw [List.length_replicate]
    decide
  unfold ofBytes File.ofBytes
  refine .step (readAt_eq source hheader) ?_
  rw [List.length_replicate]
  refine .step (between_filled _ _) ?_
  refine (safe_fileHeader _).bind fun header hheader => ?_
  have hpages := (File.Header.supported hheader).bounds
  refine .step (mul_eq (by omega)) ?_
  change Safe (if source.size < _ then _ else _) (if source.size < _ then _ else _)
  split
  · exact .error trivial
  · exact .ok _

theorem pageCount_eq (hsupported : file.layout.Supported) :
    pageCount file = .ok file.pageCount := by
  have hpages := hsupported.bounds
  rw [pageCount, div_eq (by unfold File.pageSize; omega), ok_bind]
  rfl

theorem pageOffset_le (hsupported : file.layout.Supported) (id : PageId) :
    file.pageOffset id ≤ 2 ^ 47 := calc
  _ ≤ 2 ^ 32 * 0x8000 := Nat.mul_le_mul id.value.toNat_lt hsupported.bounds.2
  _ = 2 ^ 47 := rfl

theorem pageOffset_eq (hsupported : file.layout.Supported) (id : PageId) :
    pageOffset file id = .ok (file.pageOffset id) := by
  have hid := id.value.toNat_lt
  rw [pageOffset, add_eq (by omega), ok_bind,
    mul_eq (lt_of_le_of_lt (pageOffset_le hsupported id) (by decide))]
  rfl

theorem safe_pageHeader {α : Type} [ByteSource α] (s : α) :
    Safe (Page.Header.read s) (Page.Header.read s) := by
  have hsmall : ∀ offset < 40, offset < addressLimit := fun offset h => h.trans (by decide)
  unfold Page.Header.read
  refine (safe_slice (hsmall 0 (by decide)) _ _).bind fun _ _ => ?_
  refine (safe_readU32 (hsmall 16 (by decide)) _).bind fun _ _ => ?_
  refine (safe_readU32 (hsmall 20 (by decide)) _).bind fun _ _ => ?_
  refine (safe_readU32 (hsmall 24 (by decide)) _).bind fun _ _ => ?_
  refine (safe_readU16 (hsmall 28 (by decide)) _).bind fun _ _ => ?_
  refine (safe_readU16 (hsmall 32 (by decide)) _).bind fun _ _ => ?_
  refine (safe_readU16 (hsmall 34 (by decide)) _).bind fun _ _ => ?_
  refine (safe_readU32 (hsmall 36 (by decide)) _).bind fun _ _ => ?_
  exact .ok _

theorem safe_ofBlock (id : PageId) (layout : Layout) (data : ByteArray) :
    Safe (Page.ofBlock id layout data) (Page.ofBlock id layout data) :=
  (safe_pageHeader data).bind fun _ _ => .ok _

theorem safe_readPage (hsupported : file.layout.Supported) (id : PageId) :
    Safe (readPage file id) (file.readPage id) := by
  have hoffset := pageOffset_le hsupported id
  have hpages : file.pageSize ≤ 0x8000 := hsupported.bounds.2
  have hend : file.pageOffset id + (List.replicate file.pageSize (0 : UInt8)).length <
      addressLimit := by
    rw [List.length_replicate]
    unfold addressLimit
    omega
  unfold readPage
  refine .step (pageOffset_eq hsupported id) (.step (readAt_eq file.source hend) ?_)
  have hblock : (block file.source (file.pageOffset id) file.pageSize).size =
      (ByteSource.read file.source (file.pageOffset id) file.pageSize).length := rfl
  unfold File.readPage
  dsimp only
  rw [List.length_replicate, hblock]
  split
  · exact .error trivial
  · rename_i hfull
    have hwhole : (List.replicate file.pageSize (0 : UInt8)).drop
        (ByteSource.read file.source (file.pageOffset id) file.pageSize).length = [] := by
      rw [List.drop_replicate, List.replicate_eq_nil_iff]
      omega
    have hdata : (⟨(ByteSource.read file.source (file.pageOffset id) file.pageSize).toArray⟩ :
        ByteArray) = block file.source (file.pageOffset id) file.pageSize :=
      ByteArray.ext Array.toArray_toList
    rw [hwhole, List.append_nil, hdata]
    exact safe_ofBlock _ _ _

theorem safe_readPageHeader (hsupported : file.layout.Supported) (id : PageId) :
    Safe (readPageHeader file id) (file.readPageHeader id) := by
  have hoffset := pageOffset_le hsupported id
  have hend : file.pageOffset id + (List.replicate Page.Header.size (0 : UInt8)).length <
      addressLimit := by
    rw [List.length_replicate]
    exact lt_of_le_of_lt (Nat.add_le_add_right hoffset _) (by decide)
  unfold readPageHeader
  refine .step (pageOffset_eq hsupported id) (.step (readAt_eq file.source hend) ?_)
  rw [List.length_replicate]
  exact .step (between_filled _ _) (safe_pageHeader _)

end

end Ese.Machine
