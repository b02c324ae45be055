import Mathlib
import Ese.Proofs.Page.Entries
import Ese.Tree.Walk
/-!
Keys from their parts. The header of an entry says how many bytes its key shares and how many are
its own, and the payload is what comes behind those. A key is the first eight of these bytes, with
zeros for what is not there, and nothing else of the entry has a part in it.
-/

namespace Ese

namespace Key

/-! Bytes that are filled up with zeros -/

theorem padTo_of_le {n : Nat} {bytes : Bytes} (h : n ≤ bytes.length) :
    padTo n bytes = bytes.take n := by
  rw [padTo, Nat.sub_eq_zero_of_le h, List.replicate_zero, List.append_nil]

@[simp] theorem length_padTo (n : Nat) (bytes : Bytes) : (padTo n bytes).length = n := by
  rw [padTo, List.length_append, List.length_take, List.length_replicate]
  omega

theorem getElem?_padTo {i n : Nat} (h : i < n) (bytes : Bytes) :
    (padTo n bytes)[i]? = some (bytes.getD i 0) := by
  rw [padTo, List.getD_eq_getElem?_getD]
  rcases Nat.lt_or_ge i bytes.length with hi | hi
  · rw [List.getElem?_append_left (by rw [List.length_take]; omega), List.getElem?_take_of_lt h,
      List.getElem?_eq_getElem hi]
    rfl
  · rw [List.getElem?_append_right (by rw [List.length_take]; omega), List.length_take,
      List.getElem?_replicate_of_lt (by omega), List.getElem?_eq_none hi]
    rfl

theorem padTo_eq_padTo {n : Nat} {a b : Bytes} (h : ∀ i < n, a.getD i 0 = b.getD i 0) :
    padTo n a = padTo n b := by
  refine List.ext_getElem? fun i => ?_
  rcases Nat.lt_or_ge i n with hi | hi
  · rw [getElem?_padTo hi, getElem?_padTo hi, h i hi]
  · rw [List.getElem?_eq_none (by simpa using hi), List.getElem?_eq_none (by simpa using hi)]

theorem take_padTo (k n : Nat) (bytes : Bytes) :
    (padTo n bytes).take k = padTo (min k n) bytes := by
  refine List.ext_getElem? fun i => ?_
  rcases Nat.lt_or_ge i (min k n) with hi | hi
  · rw [List.getElem?_take_of_lt (by omega), getElem?_padTo (by omega), getElem?_padTo hi]
  · rw [List.getElem?_eq_none (by simpa using hi), List.getElem?_eq_none (by simpa using hi)]

theorem padTo_of_take {n : Nat} {a b : Bytes} (h : a.take n = b.take n) :
    padTo n a = padTo n b := by
  refine padTo_eq_padTo fun i hi => ?_
  rw [List.getD_eq_getElem?_getD, ← List.getElem?_take_of_lt hi, h, List.getElem?_take_of_lt hi,
    List.getD_eq_getElem?_getD]

theorem padTo_append_zeros (n k : Nat) (bytes : Bytes) :
    padTo n (bytes ++ List.replicate k 0) = padTo n bytes := by
  refine padTo_eq_padTo fun i _ => ?_
  rw [List.getD_eq_getElem?_getD, List.getD_eq_getElem?_getD]
  rcases Nat.lt_or_ge i bytes.length with hi | hi
  · rw [List.getElem?_append_left hi]
  · rw [List.getElem?_append_right hi, List.getElem?_eq_none hi, List.getElem?_replicate]
    split <;> rfl

/-! The parts of a key -/

/-- A key is its shared bytes and then its own, each part as long as declared, as far as there is
room. -/
theorem bytes_rebuild_eq {h : KeyHeader} {shared : Nat}
    (hshared : sharedLength h = min shared maxLength) (data external : Bytes) :
    (rebuild h data external).bytes =
      (padTo shared external ++ padTo h.localSize.toNat (data.drop h.localOffset)).take
        maxLength := by
  have hown : ownLength h = min (maxLength - shared) h.localSize.toNat := by
    rw [ownLength, hshared]
    omega
  rw [List.take_append, length_padTo, take_padTo, take_padTo, ← hown, Nat.min_comm, ← hshared]
  rfl

/-- The parts of a key that are there as a whole. -/
theorem bytes_rebuild {h : KeyHeader} {shared : Nat} {data external key payload : Bytes}
    (hshared : sharedLength h = min shared maxLength) (hle : shared ≤ external.length)
    (hlocal : h.localSize.toNat = key.length) (hdata : data.drop h.localOffset = key ++ payload) :
    (rebuild h data external).bytes = (external.take shared ++ key).take maxLength := by
  have hown : padTo h.localSize.toNat (data.drop h.localOffset) = key := by
    rw [hdata, hlocal, padTo_of_le (by simp), List.take_left]
  rw [bytes_rebuild_eq hshared, hown, padTo_of_le hle]

end Key

/-- How many bytes an entry shares by its header. -/
def KeyHeader.sharedSize (h : KeyHeader) : Nat := (h.commonSize.map UInt16.toNat).getD 0

theorem KeyHeader.sharedSize_of_plain {v : TaggedValue} {h : KeyHeader} (hplain : ¬ v.hasCommonKey)
    (hread : read v = .ok h) : h.sharedSize = 0 := by
  obtain ⟨size, -, rfl⟩ := of_read_plain hplain hread
  rfl

namespace Key

variable {h : KeyHeader}

theorem sharedLength_eq (h : KeyHeader) : sharedLength h = min h.sharedSize maxLength := by
  rcases h with ⟨_ | common, size, offset⟩ <;> rfl

/-- The external key and the entry, as far as the key depends on them. -/
theorem rebuild_eq_rebuild {data data' external external' : Bytes}
    (hexternal : padTo (sharedLength h) external' = padTo (sharedLength h) external)
    (hdata : padTo h.localSize.toNat (data'.drop h.localOffset) =
      padTo h.localSize.toNat (data.drop h.localOffset)) :
    rebuild h data' external' = rebuild h data external := by
  have hown (bytes : Bytes) :
      padTo (ownLength h) bytes = (padTo h.localSize.toNat bytes).take (ownLength h) := by
    rw [take_padTo, ownLength, Nat.min_eq_left (Nat.min_le_left _ _)]
  rw [rebuild, rebuild, hexternal, hown, hdata, ← hown]

theorem drop_take_local {data data' : Bytes}
    (hsame : data'.take h.endOffset = data.take h.endOffset) :
    (data'.drop h.localOffset).take h.localSize.toNat =
      (data.drop h.localOffset).take h.localSize.toNat := by
  rw [List.take_drop, List.take_drop, ← KeyHeader.endOffset, hsame]

/-- Each byte of a key has its place, in the external key or between the header and the payload of
the entry. -/
theorem getElem?_bytes_rebuild (data external : Bytes) {i : Nat} (hi : i < maxLength)
    (hdeclared : i < h.sharedSize + h.localSize.toNat) :
    (rebuild h data external).bytes[i]? = some (if i < h.sharedSize then external.getD i 0
      else data.getD (h.localOffset + (i - h.sharedSize)) 0) := by
  rw [bytes_rebuild_eq (sharedLength_eq h), List.getElem?_take_of_lt hi]
  split
  · rename_i hshared
    rw [List.getElem?_append_left (by simpa using hshared), getElem?_padTo hshared]
  · rename_i hown
    rw [List.getElem?_append_right (by simpa using hown), length_padTo, getElem?_padTo (by omega),
      List.getD_eq_getElem?_getD, List.getElem?_drop, List.getD_eq_getElem?_getD]

/-- What the key of an entry with this header has to be. -/
structure Rebuilt (v : TaggedValue) (h : KeyHeader) (external : Bytes) (k : Key) : Prop where
  bytes : k.bytes = (padTo h.sharedSize external ++
    padTo h.localSize.toNat (v.data.drop h.localOffset)).take 8
  length : k.bytes.length = min 8 (h.sharedSize + h.localSize.toNat)
  endOffset : k.endOffset = h.endOffset
  /-- The place of each byte; a zero stands for one that is not there. -/
  byte : ∀ i < k.bytes.length, k.bytes[i]? = some (if i < h.sharedSize then external.getD i 0
    else v.data.getD (h.localOffset + (i - h.sharedSize)) 0)
  inside : ∀ i < k.bytes.length, h.sharedSize ≤ i →
    h.localOffset + (i - h.sharedSize) < k.endOffset
  /-- No more than eight bytes of the external key matter. -/
  shared : ∀ other : Bytes, other.take (min h.sharedSize 8) = external.take (min h.sharedSize 8) →
    parse v other = .ok k
  plain : ¬ v.hasCommonKey → h.sharedSize = 0 ∧ ∀ other, parse v other = .ok k
  payload : ∀ v' : TaggedValue, v'.flags = v.flags →
    v'.data.take k.endOffset = v.data.take k.endOffset → parse v' external = .ok k
  /-- An entry that ends too early has the key that it had with zeros behind its end. -/
  cut : ∀ n, parse { v with data := v.data ++ List.replicate n 0 } external = .ok k

theorem rebuilt_of_read {v : TaggedValue} (hread : KeyHeader.read v = .ok h) (external : Bytes) :
    Rebuilt v h external (rebuild h v.data external) := by
  have hbytes := bytes_rebuild_eq (sharedLength_eq h) v.data external
  have hlength : (rebuild h v.data external).bytes.length =
      min 8 (h.sharedSize + h.localSize.toNat) := by
    rw [hbytes, List.length_take, List.length_append, length_padTo, length_padTo]
    rfl
  have hother (other : Bytes)
      (hsame : other.take (min h.sharedSize 8) = external.take (min h.sharedSize 8)) :
      parse v other = .ok (rebuild h v.data external) := by
    rw [parse_of_read hread]
    refine congrArg Except.ok (rebuild_eq_rebuild (padTo_of_take ?_) rfl)
    rw [sharedLength_eq]
    exact hsame
  refine ⟨hbytes, hlength, rfl, fun i hi => ?_, fun i hi hown => ?_, hother, fun hplain => ?_,
    fun v' hflags hsame => ?_, fun n => ?_⟩
  · rw [hlength] at hi
    exact getElem?_bytes_rebuild _ _ (show i < 8 by omega) (by omega)
  · rw [hlength] at hi
    change _ < h.localOffset + h.localSize.toNat
    omega
  · have hnone := KeyHeader.sharedSize_of_plain hplain hread
    exact ⟨hnone, fun other => hother other (by rw [hnone]; rfl)⟩
  · have hheader : v'.data.take h.localOffset = v.data.take h.localOffset := by
      have hcut := congrArg (List.take h.localOffset) hsame
      have hle : h.localOffset ≤ h.endOffset := Nat.le_add_right _ _
      rwa [List.take_take, List.take_take, show (rebuild h v.data external).endOffset = h.endOffset
        from rfl, Nat.min_eq_left hle] at hcut
    rw [parse_of_read (KeyHeader.read_of_take hflags hread hheader)]
    exact congrArg Except.ok (rebuild_eq_rebuild rfl (padTo_of_take (drop_take_local hsame)))
  · have hinside := KeyHeader.localOffset_le hread
    have hheader : KeyHeader.read { v with data := v.data ++ List.replicate n 0 } = .ok h :=
      KeyHeader.read_of_take (v := v) rfl hread (List.take_append_of_le_length hinside)
    rw [parse_of_read hheader]
    refine congrArg Except.ok (rebuild_eq_rebuild rfl ?_)
    rw [List.drop_append_of_le_length hinside, padTo_append_zeros]

/-- The key of an entry is rebuilt from its two parts, whatever they are; only an entry without a
whole header has none. -/
theorem rebuilt_parse (v : TaggedValue) (external : Bytes) :
    match KeyHeader.read v with
    | .error e => parse v external = .error e
    | .ok h => ∃ k, parse v external = .ok k ∧ Rebuilt v h external k := by
  rcases hread : KeyHeader.read v with e | h
  · exact parse_of_error hread external
  · exact ⟨_, parse_of_read hread external, rebuilt_of_read hread external⟩

end Key

namespace Tree

/-- An entry is split where its header says. -/
theorem split_of_header (page : Page) (shared : Nat) {seen key payload : Bytes} {v : TaggedValue}
    {h : KeyHeader} (hread : KeyHeader.read v = .ok h)
    (hshared : Key.sharedLength h = min shared Key.maxLength) (hle : shared ≤ seen.length)
    (hlocal : h.localSize.toNat = key.length) (hdata : v.data.drop h.localOffset = key ++ payload) :
    ∃ k, Leaf.split ⟨page, seen, v⟩ = .ok (k, payload) ∧
      k.bytes = (seen.take shared ++ key).take Key.maxLength := by
  have hpayload : v.data.drop h.endOffset = payload := by
    rw [KeyHeader.endOffset, ← List.drop_drop, hdata, hlocal, List.drop_left]
  refine ⟨Key.rebuild h v.data seen, ?_, Key.bytes_rebuild hshared hle hlocal hdata⟩
  rw [Leaf.split, Leaf.key, Key.parse_of_read hread]
  exact congrArg (fun b => Except.ok (_, b)) hpayload

end Tree

end Ese
