import Mathlib
import Ese.Page.Key
import Ese.Proofs.Bytes.Read
/-!
Entries in two readings. The strict one cuts out the key and refuses an entry that ends inside it;
the lenient one fills the key up with zeros. They agree on where a payload starts, and where the
strict one refuses an entry, the lenient one refuses it too or finds no payload.
-/

namespace Ese

namespace KeyHeader

variable {v : TaggedValue} {h : KeyHeader}

theorem of_read_common (hcommon : v.hasCommonKey) (hread : read v = .ok h) :
    ∃ common size, readU16 v.data 0 .entryKeyHeader = .ok common ∧
      readU16 v.data 2 .entryKeyHeader = .ok size ∧ h = ⟨some common, size, 4⟩ := by
  rw [read, if_pos hcommon] at hread
  obtain ⟨common, hc, hread⟩ := Outcome.of_bind_ok hread
  obtain ⟨size, hs, hread⟩ := Outcome.of_bind_ok hread
  exact ⟨common, size, hc, hs, (Except.ok.inj hread).symm⟩

theorem of_read_plain (hplain : ¬ v.hasCommonKey) (hread : read v = .ok h) :
    ∃ size, readU16 v.data 0 .entryKeyHeader = .ok size ∧ h = ⟨none, size, 2⟩ := by
  rw [read, if_neg hplain] at hread
  obtain ⟨size, hs, hread⟩ := Outcome.of_bind_ok hread
  exact ⟨size, hs, (Except.ok.inj hread).symm⟩

theorem localOffset_le (hread : read v = .ok h) : h.localOffset ≤ v.data.length := by
  by_cases hcommon : v.hasCommonKey
  · obtain ⟨common, size, -, hs, rfl⟩ := of_read_common hcommon hread
    exact end_le_of_readU16 hs
  · obtain ⟨size, hs, rfl⟩ := of_read_plain hcommon hread
    exact end_le_of_readU16 hs

theorem read_of_take {v' : TaggedValue} (hflags : v'.flags = v.flags) (hread : read v = .ok h)
    (hsame : v'.data.take h.localOffset = v.data.take h.localOffset) : read v' = .ok h := by
  have hkind : v'.hasCommonKey = v.hasCommonKey := by
    rw [TaggedValue.hasCommonKey, hflags, TaggedValue.hasCommonKey]
  by_cases hcommon : v.hasCommonKey
  · obtain ⟨common, size, hc, hs, rfl⟩ := of_read_common hcommon hread
    rw [read, if_pos (hkind ▸ hcommon), readU16_of_take hsame (show 2 ≤ 4 by decide) hc,
      readU16_of_take hsame le_rfl hs]
    rfl
  · obtain ⟨size, hs, rfl⟩ := of_read_plain hcommon hread
    rw [read, if_neg (hkind ▸ hcommon), readU16_of_take hsame le_rfl hs]
    rfl

end KeyHeader

/-- A header is all that a key can fail on. -/
theorem Key.parse_of_read {v : TaggedValue} {h : KeyHeader} (hread : KeyHeader.read v = .ok h)
    (external : Bytes) : Key.parse v external = .ok (Key.rebuild h v.data external) := by
  rw [Key.parse, hread]
  rfl

theorem Key.parse_of_error {v : TaggedValue} {e : DecodeError} (hread : KeyHeader.read v = .error e)
    (external : Bytes) : Key.parse v external = .error e := by
  rw [Key.parse, hread]
  rfl

namespace LeafEntry

variable {v : TaggedValue}

/-- A leaf entry whose local key is there is parsed. -/
theorem parse_of_inside {h : KeyHeader} (hread : KeyHeader.read v = .ok h)
    (hinside : h.endOffset ≤ v.data.length) :
    parse v = .ok
      ⟨h, (v.data.drop h.localOffset).take h.localSize.toNat, v.data.drop h.endOffset⟩ := by
  have hslice : slice v.data h.localOffset h.localSize.toNat .leafKey =
      .ok ((v.data.drop h.localOffset).take h.localSize.toNat) :=
    slice_eq_ok_iff.mpr ⟨hinside, rfl⟩
  have hpayload : bytesFrom v.data h.endOffset = .ok (v.data.drop h.endOffset) := if_pos hinside
  unfold parse
  simp only [hread, bind, Except.bind, hslice, hpayload]
  rfl

/-- One that ends inside its local key is not. -/
theorem endOffset_le_of_parse_ok {h : KeyHeader} {entry : LeafEntry}
    (hread : KeyHeader.read v = .ok h)
    (hentry : parse v = .ok entry) : h.endOffset ≤ v.data.length := by
  obtain ⟨header, hheader, hentry⟩ := Outcome.of_bind_ok hentry
  obtain ⟨localKey, hslice, -⟩ := Outcome.of_bind_ok hentry
  cases hread.symm.trans hheader
  exact (slice_eq_ok_iff.mp hslice).1

theorem parse_of_error {e : DecodeError} (hread : KeyHeader.read v = .error e) :
    parse v = .error e := by
  rw [parse, hread]
  rfl

end LeafEntry

theorem BranchEntry.of_parse_ok {v : TaggedValue} {entry : BranchEntry} (h : parse v = .ok entry) :
    KeyHeader.read v = .ok entry.key ∧
      LittleEndian.encode 4 entry.child.value.toNat <+: v.data.drop entry.key.endOffset := by
  obtain ⟨header, hread, h⟩ := Outcome.of_bind_ok h
  obtain ⟨localKey, -, h⟩ := Outcome.of_bind_ok h
  obtain ⟨child, hchild, h⟩ := Outcome.of_bind_ok h
  obtain rfl := Except.ok.inj h
  exact ⟨hread, encode_of_readU32 hchild⟩

/-- The lenient reading of an entry, with this external key, against the strict ones. -/
structure ReadsAlike (v : TaggedValue) (external : Bytes) : Prop where
  leaf : ∀ entry, LeafEntry.parse v = .ok entry → ∃ key, Key.parse v external = .ok key ∧
    key.endOffset = entry.key.endOffset ∧ key.payload v = entry.payload
  refused : ∀ e, LeafEntry.parse v = .error e → Key.parse v external = .error e ∨
    ∃ key, Key.parse v external = .ok key ∧ key.payload v = []
  branch : ∀ entry, BranchEntry.parse v = .ok entry → ∃ key, Key.parse v external = .ok key ∧
    LittleEndian.encode 4 entry.child.value.toNat <+: key.payload v

/-- The readings of an entry agree on its payload, whatever its flags and its bytes are. -/
theorem readsAlike (v : TaggedValue) (external : Bytes) : ReadsAlike v external := by
  rcases hread : KeyHeader.read v with e | h
  · have hleaf := LeafEntry.parse_of_error hread
    refine ⟨fun entry hentry => ?_, fun e' he' => ?_, fun entry hentry => ?_⟩
    · cases hleaf.symm.trans hentry
    · cases hleaf.symm.trans he'
      exact .inl (Key.parse_of_error hread external)
    · cases hread.symm.trans (BranchEntry.of_parse_ok hentry).1
  have hkey := Key.parse_of_read hread external
  refine ⟨fun entry hentry => ?_, fun e he => ?_, fun entry hentry => ?_⟩
  · have hinside := LeafEntry.endOffset_le_of_parse_ok hread hentry
    cases (LeafEntry.parse_of_inside hread hinside).symm.trans hentry
    exact ⟨_, hkey, rfl, rfl⟩
  · refine .inr ⟨_, hkey, List.drop_eq_nil_of_le (le_of_not_ge fun hinside => ?_)⟩
    cases (LeafEntry.parse_of_inside hread hinside).symm.trans he
  · obtain ⟨hheader, hchild⟩ := BranchEntry.of_parse_ok hentry
    cases hread.symm.trans hheader
    exact ⟨_, hkey, hchild⟩

end Ese
