import Mathlib
import Ese.Proofs.Machine.Pages
import Ese.Tree.Walk
/-!
Tagged values, entries and keys, read with checked operations. All sizes and offsets in a page have
at most 15 bits, so a value is shorter than a page can be, and a local key that was cut out of its
value ends inside it.
-/

namespace Ese.Machine

/-- The flags of a value with large tags are the top three bits of its second byte. -/
def splitValue (index : Nat) : Bytes → Except DecodeError TaggedValue
  | a :: b :: rest => do
    let flags ← shiftRight 8 b.toNat 5
    return ⟨index, UInt8.ofNat flags, a :: (b &&& 0x1F) :: rest⟩
  | data => return ⟨index, 0, data⟩

def readTag (layout : Layout) (page : ByteArray) (index : Nat) :
    Except DecodeError TaggedValue := do
  let number ← add 64 index 1
  let back ← mul 64 4 number
  if layout.pageSize < back then .error (.truncated .tagDirectory 0 4 page.size)
  else do
    let entry := layout.pageSize - back
    let rawSize ← readU16 page entry .tagDirectory
    let second ← add 64 entry 2
    let rawOffset ← readU16 page second .tagDirectory
    let mask := if layout.hasLargeTags then TaggedValue.largeMask else TaggedValue.smallMask
    let offset ← add 64 layout.pageHeaderSize (rawOffset &&& mask).toNat
    let data ← slice page offset (rawSize &&& mask).toNat .taggedValue
    if layout.hasLargeTags then splitValue index data
    else do
      let flags ← shiftRight 16 rawOffset.toNat 13
      let flags ← fit 8 flags
      return ⟨index, UInt8.ofNat flags, data⟩

def values (page : Page) : Except DecodeError (List TaggedValue) :=
  (List.range page.tagCount).mapM (readTag page.layout page.data)

def readKeyHeader (v : TaggedValue) : Except DecodeError KeyHeader :=
  if v.hasCommonKey then do
    let common ← readU16 v.data 0 .entryKeyHeader
    let offset ← add 64 0 2
    let size ← readU16 v.data offset .entryKeyHeader
    let offset ← add 64 offset 2
    return ⟨some common, size, offset⟩
  else do
    let size ← readU16 v.data 0 .entryKeyHeader
    let offset ← add 64 0 2
    return ⟨none, size, offset⟩

def endOffset (h : KeyHeader) : Except DecodeError Nat := add 64 h.localOffset h.localSize.toNat

def parseLeaf (v : TaggedValue) : Except DecodeError LeafEntry := do
  let key ← readKeyHeader v
  let localKey ← slice v.data key.localOffset key.localSize.toNat .leafKey
  let start ← endOffset key
  let payload ← between v.data start v.data.length
  return { key, localKey, payload }

def parseBranch (v : TaggedValue) : Except DecodeError BranchEntry := do
  let key ← readKeyHeader v
  let localKey ← slice v.data key.localOffset key.localSize.toNat .branchKey
  let start ← endOffset key
  let child ← readU32 v.data start .branchChild
  return { key, localKey, child := ⟨child⟩ }

def parseKey (v : TaggedValue) (external : Bytes) : Except DecodeError Key := do
  let header ← readKeyHeader v
  let shared := Key.sharedLength header
  let room ← sub Key.maxLength shared
  let own := min header.localSize.toNat room
  let _ ← add 64 shared own
  let start ← endOffset header
  return {
    bytes := Key.padTo shared external ++ Key.padTo own (v.data.drop header.localOffset)
    endOffset := start }

def split (l : Tree.Leaf) : Except DecodeError (Key × Bytes) := do
  let key ← parseKey l.value l.external
  return (key, key.payload l.value)

section

variable {layout : Layout} {page : Page} {index : Nat} {v : TaggedValue}

theorem splitValue_eq (index : Nat) (data : Bytes) : splitValue index data =
    .ok ⟨index, TaggedValue.inValueFlags data, TaggedValue.clearInValueFlags data⟩ := by
  rcases data with _ | ⟨a, _ | ⟨b, rest⟩⟩
  · rfl
  · rfl
  · have hflags : UInt8.ofNat (b.toNat / 2 ^ 5) = b >>> 5 := by
      rw [← UInt8.toNat_inj, UInt8.toNat_shiftRight, Nat.shiftRight_eq_div_pow]
      exact UInt8.toNat_ofNat_of_lt' (lt_of_le_of_lt (Nat.div_le_self ..) b.toNat_lt)
    rw [splitValue, shiftRight_eq (by decide), ok_bind, hflags]
    rfl

theorem safe_readTag (hsupported : layout.Supported) (data : ByteArray) (hindex : index < 2 ^ 16) :
    Safe (readTag layout data index) (TaggedValue.read layout data index) := by
  have hpages := hsupported.bounds
  have hheader : layout.pageHeaderSize ≤ 80 := by
    unfold Layout.pageHeaderSize
    split <;> decide
  have hsmall : ∀ offset < 2 ^ 32, offset < addressLimit := fun offset h => h.trans (by decide)
  unfold readTag TaggedValue.read
  refine .step (add_eq (by omega)) (.step (mul_eq (by omega)) ?_)
  split
  · exact .error trivial
  refine (safe_readU16 (hsmall _ (by omega)) _).bind fun rawSize _ => ?_
  refine .step (add_eq (by omega)) ?_
  refine (safe_readU16 (hsmall _ (by omega)) _).bind fun rawOffset _ => ?_
  unfold TaggedValue.locate
  dsimp only
  generalize (if layout.hasLargeTags then TaggedValue.largeMask else TaggedValue.smallMask) = mask
  have hoffset := (rawOffset &&& mask).toNat_lt
  refine .step (add_eq (by omega)) ?_
  rw [map_eq_bind]
  refine (safe_slice (hsmall _ (by omega)) _ _).bind fun bytes _ => ?_
  split
  · rw [splitValue_eq]
    exact .ok _
  · have hflags := Field.high3 rawOffset
    have htop := rawOffset.toNat_lt
    refine .step (shiftRight_eq (by decide)) (.step (fit_eq (by omega)) ?_)
    have hbyte : UInt8.ofNat (rawOffset.toNat / 2 ^ 13) = (rawOffset >>> 13).toUInt8 := by
      rw [← UInt8.toNat_inj, UInt16.toNat_toUInt8, hflags]
      exact UInt8.toNat_ofNat'
    rw [hbyte]
    exact .ok _

theorem safe_values (hsupported : page.layout.Supported) : Safe (values page) page.values := by
  refine .mapM fun index hindex => safe_readTag hsupported page.data ?_
  exact (List.mem_range.mp hindex).trans page.header.tagCount.toNat_lt

/-! Entries -/

theorem safe_readKeyHeader (v : TaggedValue) : Safe (readKeyHeader v) (KeyHeader.read v) := by
  have hfirst : 0 < addressLimit := by decide
  unfold readKeyHeader KeyHeader.read
  split
  · refine (safe_readU16 hfirst _).bind fun common _ => ?_
    refine .step (add_eq (by decide)) ?_
    refine (safe_readU16 (by decide) _).bind fun size _ => ?_
    exact .step (add_eq (by decide)) (.ok _)
  · refine (safe_readU16 hfirst _).bind fun size _ => ?_
    exact .step (add_eq (by decide)) (.ok _)

theorem localOffset_le {h : KeyHeader} (hread : KeyHeader.read v = .ok h) : h.localOffset ≤ 4 := by
  unfold KeyHeader.read at hread
  split at hread
  · obtain ⟨common, -, hread⟩ := Outcome.of_bind_ok hread
    obtain ⟨size, -, hread⟩ := Outcome.of_bind_ok hread
    cases hread
    exact le_rfl
  · obtain ⟨size, -, hread⟩ := Outcome.of_bind_ok hread
    cases hread
    exact Nat.le_add_left 2 2

theorem endOffset_lt {h : KeyHeader} (hread : KeyHeader.read v = .ok h) : h.endOffset < 2 ^ 32 := by
  have hlocal := localOffset_le hread
  have hsize := h.localSize.toNat_lt
  unfold KeyHeader.endOffset
  omega

theorem endOffset_eq {h : KeyHeader} (hread : KeyHeader.read v = .ok h) :
    endOffset h = .ok h.endOffset :=
  add_eq ((endOffset_lt hread).trans (by decide))

theorem safe_parseLeaf (v : TaggedValue) : Safe (parseLeaf v) (LeafEntry.parse v) := by
  refine (safe_readKeyHeader v).bind fun h hread => ?_
  have hlocal : h.localOffset < addressLimit :=
    lt_of_le_of_lt (localOffset_le hread) (by decide)
  refine (safe_slice hlocal _ _).bind fun localKey hslice => ?_
  -- the local key was cut out of the value, so what follows it starts inside
  have hinside : h.endOffset ≤ v.data.length := (slice_eq_ok_iff.mp hslice).1
  refine .step (endOffset_eq hread) (.step (between_eq hinside le_rfl) ?_)
  rw [bytesFrom, if_pos hinside, List.take_of_length_le (by simp)]
  exact .ok _

theorem safe_parseBranch (v : TaggedValue) : Safe (parseBranch v) (BranchEntry.parse v) := by
  refine (safe_readKeyHeader v).bind fun h hread => ?_
  have hlocal : h.localOffset < addressLimit :=
    lt_of_le_of_lt (localOffset_le hread) (by decide)
  refine (safe_slice hlocal _ _).bind fun localKey _ => ?_
  refine .step (endOffset_eq hread) ?_
  exact (safe_readU32 ((endOffset_lt hread).trans (by decide)) _).bind fun child _ => .ok _

theorem safe_parseKey (v : TaggedValue) (external : Bytes) :
    Safe (parseKey v external) (Key.parse v external) := by
  refine (safe_readKeyHeader v).bind fun h hread => ?_
  have hshared : Key.sharedLength h ≤ Key.maxLength := by
    unfold Key.sharedLength
    split
    · exact min_le_right ..
    · exact Nat.zero_le _
  have hmax : Key.maxLength = 8 := rfl
  exact .step (sub_eq hshared) (.step (add_eq (by omega)) (.step (endOffset_eq hread) (.ok _)))

theorem safe_split (l : Tree.Leaf) : Safe (split l) l.split :=
  (safe_parseKey l.value l.external).bind fun _ _ => .ok _

end

end Ese.Machine
