import Mathlib
import Ese.File.Basic
import Ese.Proofs.Page.RoundTrip
/-!
What an open file is known to satisfy: its layout is one of those that are supported, both header
blocks are there, and the pages that can be read are those of its page count.
-/

namespace Ese

namespace PageId

theorem one_le_of_isValid {id : PageId} (h : id.isValid) : 1 ≤ id.value.toNat := by
  rw [Nat.one_le_iff_ne_zero]
  intro hzero
  rw [show id = ⟨0⟩ from congrArg PageId.mk (UInt32.toNat_inj.mp hzero)] at h
  exact absurd h (by decide)

/-- The all-ones number names no page. -/
theorem lt_of_isValid {id : PageId} (h : id.isValid) : id.value.toNat < 0xFFFFFFFF := by
  have hlast : id.value.toNat ≠ 0xFFFFFFFF := by
    intro hlast
    rw [show id = ⟨0xFFFFFFFF⟩ from congrArg PageId.mk (UInt32.toNat_inj.mp hlast)] at h
    exact absurd h (by decide)
  have hbound := id.value.toNat_lt
  omega

end PageId

namespace File

variable {source : ByteArray} {file : File} {id : PageId} {page : Page}

theorem Header.of_readFields {α : Type} [ByteSource α] {bytes : α} {pageSize : UInt32}
    {header : Header} (h : readFields bytes pageSize = .ok header) :
    header.pageSize = pageSize := by
  unfold readFields at h
  obtain ⟨_, -, h⟩ := Outcome.of_bind_ok h
  obtain ⟨_, -, h⟩ := Outcome.of_bind_ok h
  obtain ⟨_, -, h⟩ := Outcome.of_bind_ok h
  obtain ⟨_, -, h⟩ := Outcome.of_bind_ok h
  obtain ⟨_, -, h⟩ := Outcome.of_bind_ok h
  cases h
  rfl

theorem Header.supported {α : Type} [ByteSource α] {bytes : α} {header : Header}
    (h : Header.read bytes = .ok header) : header.layout.Supported := by
  unfold Header.read at h
  split at h
  · cases h
  obtain ⟨found, -, h⟩ := Outcome.of_bind_ok h
  split at h
  · cases h
  obtain ⟨pageSize, -, h⟩ := Outcome.of_bind_ok h
  split at h
  · rename_i hmem
    have hsize := of_readFields h
    change header.pageSize.toNat ∈ [4096, 8192, 16384, 32768]
    rw [hsize]
    exact List.mem_map_of_mem (f := UInt32.toNat) hmem
  · cases h

theorem of_ofBytes (h : ofBytes source = .ok file) :
    file.source = source ∧ file.layout.Supported ∧ 2 * file.pageSize ≤ file.size := by
  unfold ofBytes at h
  obtain ⟨header, hheader, h⟩ := Outcome.of_bind_ok h
  dsimp only at h
  split at h
  · cases h
  · rename_i hroom
    cases h
    exact ⟨rfl, Header.supported hheader, not_lt.mp hroom⟩

/-- A page that is read lies in the file as a whole. -/
theorem pageOffset_add_le (hsize : 0 < file.pageSize) (h : file.readPage id = .ok page) :
    file.pageOffset id + file.pageSize ≤ file.size := by
  simp only [readPage] at h
  split at h
  · cases h
  · rename_i hfull
    have hlength := congrArg List.length
      (toList_block file.source (file.pageOffset id) file.pageSize)
    rw [List.length_take, List.length_drop, Array.length_toList, Array.length_toList] at hlength
    change (block file.source (file.pageOffset id) file.pageSize).size =
      min file.pageSize (file.size - file.pageOffset id) at hlength
    omega

/-- The pages that can be read are the pages of the count. -/
theorem le_pageCount (hsize : 0 < file.pageSize) (h : file.readPage id = .ok page) :
    id.value.toNat ≤ file.pageCount := by
  have hend := pageOffset_add_le hsize h
  have hpages : (id.value.toNat + 2) * file.pageSize ≤ file.size := by
    unfold pageOffset PageId.fileOffset at hend
    rwa [← Nat.succ_mul] at hend
  have hdiv := (Nat.le_div_iff_mul_le hsize).mpr hpages
  unfold pageCount
  omega

end File

end Ese
