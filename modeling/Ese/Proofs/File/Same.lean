import Mathlib
import Ese.File.Basic
import Ese.Proofs.Outcome
/-!
Images that are the same in places. What is read from an open file depends on the bytes read: on the
header for the layout, without its checksum, and on the block of a page for the page.
-/

namespace Ese

def SameBytes (a b : ByteArray) (first last : Nat) : Prop :=
  ∀ i, first ≤ i → i < last → a.data[i]? = b.data[i]?

section

variable {a b : ByteArray} {first last : Nat}

theorem SameBytes.toList_eq (h : SameBytes a b first last) :
    (a.data.toList.drop first).take (last - first) =
      (b.data.toList.drop first).take (last - first) := by
  refine List.ext_getElem? fun i => ?_
  by_cases hi : i < last - first
  · rw [List.getElem?_take_of_lt hi, List.getElem?_take_of_lt hi, List.getElem?_drop,
      List.getElem?_drop, Array.getElem?_toList, Array.getElem?_toList]
    exact h (first + i) (by omega) (by omega)
  · rw [List.getElem?_take_eq_none (by omega), List.getElem?_take_eq_none (by omega)]

theorem block_eq_of_same {offset count : Nat} (h : SameBytes a b offset (offset + count)) :
    block a offset count = block b offset count := by
  apply ByteArray.ext
  apply Array.toList_inj.mp
  have hbytes := h.toList_eq
  rw [Nat.add_sub_cancel_left] at hbytes
  rw [toList_block, toList_block, hbytes]

end

/-! The header -/

section

variable {r r' : Bytes}

theorem readU32_eq_of_drop {n offset : Nat} (hlen : r'.length = r.length)
    (hsame : r'.drop n = r.drop n) (hoffset : n ≤ offset) (part : Part) :
    readU32 r' offset part = readU32 r offset part := by
  have hdrop : r'.drop offset = r.drop offset := by
    rw [show offset = n + (offset - n) by omega, ← List.drop_drop, ← List.drop_drop, hsame]
  have hslice : slice r' offset 4 part = slice r offset 4 part := by
    have hsize : ByteSource.size r' = ByteSource.size r := hlen
    have hread : ByteSource.read r' offset 4 = ByteSource.read r offset 4 :=
      congrArg (List.take 4) hdrop
    rw [slice, slice, hsize, hread]
  rw [readU32, readU32, readNat, readNat, hslice]

theorem readU32_zero (h : 4 ≤ r.length) (part : Part) : ∃ n, readU32 r 0 part = .ok n := by
  refine ⟨UInt32.ofNat (LittleEndian.decode ((r.drop 0).take 4)), ?_⟩
  have hslice : slice r 0 4 part = .ok ((r.drop 0).take 4) := slice_eq_ok_iff.mpr ⟨h, rfl⟩
  rw [readU32, readNat, hslice]
  rfl

namespace File

/-- The checksum is the only field in the first four bytes, and nothing else depends on it. -/
theorem Header.read_of_same (hlen : r'.length = r.length) (hsame : r'.drop 4 = r.drop 4) :
    ∃ checksum, Header.read r' = (Header.read r).map fun h => { h with checksum } := by
  have hsize : ByteSource.size r' = ByteSource.size r := hlen
  by_cases hshort : ByteSource.size r < size
  · refine ⟨0, ?_⟩
    rw [read, read, hsize, if_pos hshort, if_pos hshort]
    rfl
  have hlong : 240 ≤ r.length := not_lt.mp hshort
  obtain ⟨old, hold⟩ := readU32_zero (r := r) (by omega) .fileHeader
  obtain ⟨checksum, hnew⟩ := readU32_zero (r := r') (by omega) .fileHeader
  have hfield : ∀ offset, 4 ≤ offset →
      readU32 r' offset .fileHeader = readU32 r offset .fileHeader :=
    fun offset h => readU32_eq_of_drop hlen hsame h .fileHeader
  have hfields : ∀ pageSize, readFields r' pageSize =
      (readFields r pageSize).map fun h => { h with checksum } := by
    intro pageSize
    unfold readFields
    rw [hold, hnew, hfield 8 (by omega), hfield 12 (by omega), hfield 52 (by omega),
      hfield 232 (by omega)]
    rcases readU32 r 8 .fileHeader with _ | version <;>
    rcases readU32 r 12 .fileHeader with _ | fileType <;>
    rcases readU32 r 52 .fileHeader with _ | state <;>
    rcases readU32 r 232 .fileHeader with _ | revision <;> rfl
  refine ⟨checksum, ?_⟩
  rw [read, read, hsize, if_neg hshort, if_neg hshort, hfield 4 le_rfl, hfield 236 (by omega)]
  rcases readU32 r 4 .fileHeader with e | found
  · rfl
  rcases readU32 r 236 .fileHeader with e | pageSize
  · simp only [bind, Except.bind]
    split <;> rfl
  · simp only [bind, Except.bind]
    split
    · rfl
    split
    · exact hfields pageSize
    · rfl

variable {a b : ByteArray}

/-- An image with the same header opens as the other does, up to the checksum of the header. -/
theorem ofBytes_of_same (hsize : b.size = a.size) (hheader : SameBytes a b 4 Header.size) :
    ∃ checksum, ofBytes b =
      (ofBytes a).map fun f => { source := b, header := { f.header with checksum } } := by
  have hlength : b.data.toList.length = a.data.toList.length := hsize
  have hread : ∀ s : ByteArray, ByteSource.read s 0 Header.size = s.data.toList.take 240 :=
    fun s => (ByteSource.read_eq s 0 240)
  have hsame : (b.data.toList.take 240).drop 4 = (a.data.toList.take 240).drop 4 := by
    rw [List.drop_take, List.drop_take]
    exact hheader.toList_eq.symm
  obtain ⟨checksum, hchecksum⟩ := Header.read_of_same
    (by rw [List.length_take, List.length_take, hlength]) hsame
  refine ⟨checksum, ?_⟩
  have hbytes : ByteSource.size b = ByteSource.size a := hsize
  rw [ofBytes, ofBytes, hread, hread, hchecksum, hbytes]
  rcases Header.read (a.data.toList.take 240) with e | header
  · rfl
  · change (if ByteSource.size a < 2 * header.layout.pageSize then _ else _) =
      Except.map _ (if ByteSource.size a < 2 * header.layout.pageSize then _ else _)
    split <;> rfl

end File

end

/-! Pages -/

namespace File

theorem readPage_of_same {f g : File} {id : PageId} (hlayout : g.layout = f.layout)
    (hblock : SameBytes f.source g.source (f.pageOffset id) (f.pageOffset id + f.pageSize)) :
    g.readPage id = f.readPage id := by
  have hsize : g.pageSize = f.pageSize := congrArg Layout.pageSize hlayout
  have hoffset : g.pageOffset id = f.pageOffset id := congrArg (id.fileOffset ·) hsize
  rw [readPage, readPage, hlayout, hsize, hoffset, block_eq_of_same hblock]

end File

end Ese
