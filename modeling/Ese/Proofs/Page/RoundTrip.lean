import Mathlib
import Ese.Build.Page
import Ese.Page.Basic
import Ese.Proofs.Bytes.Field
import Ese.Proofs.Bytes.Segment
import Ese.Proofs.Outcome
/-!
Pages round trip. The values of a page run upwards and their directory downwards, so the induction
on the items keeps two running places: the offset of the next value, and the end of the directory
that is left. On every layout the values read back are those that were put in.
-/

namespace Ese

namespace Layout

def Supported (layout : Layout) : Prop := layout.pageSize ∈ [4096, 8192, 16384, 32768]

instance (layout : Layout) : Decidable layout.Supported :=
  inferInstanceAs (Decidable (layout.pageSize ∈ [4096, 8192, 16384, 32768]))

theorem Supported.bounds {layout : Layout} (h : layout.Supported) :
    4096 ≤ layout.pageSize ∧ layout.pageSize ≤ 0x8000 := by
  unfold Supported at h
  simp only [List.mem_cons, List.not_mem_nil, or_false] at h
  omega

theorem le_pageHeaderSize (layout : Layout) : 40 ≤ layout.pageHeaderSize := by
  unfold pageHeaderSize
  split <;> omega

end Layout

/-! Reads of arrays are reads of their bytes -/

section

variable {α : Type} [ByteSource α] (s : α)

theorem readU16_toBytes (offset : Nat) (part : Part) :
    readU16 s offset part = readU16 (ByteSource.toBytes s) offset part := by
  unfold readU16 readNat
  rw [slice_eq_slice_toBytes]

theorem readU32_toBytes (offset : Nat) (part : Part) :
    readU32 s offset part = readU32 (ByteSource.toBytes s) offset part := by
  unfold readU32 readNat
  rw [slice_eq_slice_toBytes]

theorem Page.Header.read_toBytes :
    Page.Header.read s = Page.Header.read (ByteSource.toBytes s) := by
  unfold Page.Header.read
  simp only [slice_eq_slice_toBytes s, readU16_toBytes s, readU32_toBytes s]

theorem TaggedValue.read_toBytes (layout : Layout) (index : Nat) :
    TaggedValue.read layout s index = TaggedValue.read layout (ByteSource.toBytes s) index := by
  have hlocate : TaggedValue.locate layout s index =
      TaggedValue.locate layout (ByteSource.toBytes s) index := by
    funext rawSize rawOffset
    exact congrArg (Except.map _) (slice_eq_slice_toBytes s _ _ _)
  unfold TaggedValue.read
  simp only [readU16_toBytes s, hlocate, ByteSource.size_eq s]
  rfl

end

namespace Build.Page

def placed : List Item → (offset : Nat) → List (Item × Nat)
  | [], _ => []
  | i :: items, offset => (i, offset) :: placed items (offset + i.data.length)

def maxField (layout : Layout) : Nat := if layout.hasLargeTags then 0x7FFF else 0x1FFF

structure Fits (p : Page) (layout : Layout) : Prop where
  supported : layout.Supported
  room : layout.pageHeaderSize + (p.items.map (·.data.length)).sum + 4 * p.items.length ≤
    layout.pageSize
  flags : ∀ i ∈ p.items, i.flags < 8
  small : layout.hasLargeTags = false → layout.pageSize > 8192 →
    ∀ x ∈ placed p.items 0, x.2 < 8192 ∧ x.1.data.length < 8192

instance (p : Page) (layout : Layout) : Decidable (p.Fits layout) :=
  decidable_of_iff
    (layout.Supported ∧
      layout.pageHeaderSize + (p.items.map (·.data.length)).sum + 4 * p.items.length ≤
        layout.pageSize ∧
      (∀ i ∈ p.items, i.flags < 8) ∧
      (layout.hasLargeTags = false → layout.pageSize > 8192 →
        ∀ x ∈ placed p.items 0, x.2 < 8192 ∧ x.1.data.length < 8192))
    ⟨fun ⟨a, b, c, d⟩ => ⟨a, b, c, d⟩, fun ⟨a, b, c, d⟩ => ⟨a, b, c, d⟩⟩

def readBack (layout : Layout) (index : Nat) (i : Item) : TaggedValue :=
  if layout.hasLargeTags then
    ⟨index, TaggedValue.inValueFlags (storedData layout i),
      TaggedValue.clearInValueFlags (storedData layout i)⟩
  else ⟨index, i.flags, i.data⟩

@[simp] theorem length_storedData (layout : Layout) (i : Item) :
    (storedData layout i).length = i.data.length := by
  unfold storedData
  split
  · split
    case h_1 h => simp [h]
    case h_2 => rfl
  · rfl

@[simp] theorem length_values (layout : Layout) (items : List Item) :
    (values layout items).length = (items.map (·.data.length)).sum := by
  simp [values, List.length_flatMap]

@[simp] theorem length_directory (layout : Layout) (items : List Item) (offset : Nat) :
    (directory layout items offset).length = 4 * items.length := by
  induction items generalizing offset with
  | nil => rfl
  | cons i items ih =>
    simp [directory, directoryEntry, ih]
    omega

theorem and_mask {layout : Layout} {n : Nat} (hn : n ≤ maxField layout) :
    (UInt16.ofNat n &&& if layout.hasLargeTags then TaggedValue.largeMask
      else TaggedValue.smallMask).toNat = n := by
  unfold maxField at hn
  cases hl : layout.hasLargeTags <;> rw [hl] at hn
  · have ht := Field.toNat_ofNat (show n < 0x10000 by simp at hn; omega)
    change (UInt16.ofNat n &&& 0x1FFF).toNat = n
    rw [Field.low13, ht]
    simp at hn
    omega
  · have ht := Field.toNat_ofNat (show n < 0x10000 by simp at hn; omega)
    change (UInt16.ofNat n &&& 0x7FFF).toNat = n
    rw [Field.low15, ht]
    simp at hn
    omega

theorem offsetField_and_mask {layout : Layout} {i : Item} {offset : Nat} (hf : i.flags < 8)
    (ho : offset ≤ maxField layout) :
    (offsetField layout i offset &&& if layout.hasLargeTags then TaggedValue.largeMask
      else TaggedValue.smallMask).toNat = offset := by
  have h := and_mask ho
  unfold maxField at ho
  unfold offsetField
  cases hl : layout.hasLargeTags <;> rw [hl] at ho h
  · change ((UInt16.ofNat offset ||| (i.flags.toUInt16 <<< 13)) &&& 0x1FFF).toNat = offset
    rw [Field.low13, Field.pack13 (by simp at ho; omega) (UInt8.lt_iff_toNat_lt.mp hf)]
    simp at ho
    omega
  · exact h

theorem offsetField_flags {layout : Layout} {i : Item} {offset : Nat} (hf : i.flags < 8)
    (hl : layout.hasLargeTags = false) (ho : offset ≤ 0x1FFF) :
    (offsetField layout i offset >>> 13).toUInt8 = i.flags := by
  have hflags : i.flags.toNat < 8 := UInt8.lt_iff_toNat_lt.mp hf
  apply UInt8.toNat_inj.mp
  rw [UInt16.toNat_toUInt8, Field.high3, offsetField, if_neg (by simp [hl]),
    Field.pack13 (by omega) hflags]
  omega

/-- Each directory entry leads to the value of its item. -/
theorem read_directory {layout : Layout} {r : Bytes} :
    ∀ (items : List Item) (offset index start : Nat),
      Segment r (layout.pageHeaderSize + offset) (values layout items) →
      Segment r start (directory layout items offset) →
      start + 4 * (index + items.length) = layout.pageSize →
      (∀ i ∈ items, i.flags < 8) →
      (∀ x ∈ placed items offset, x.2 ≤ maxField layout ∧ x.1.data.length ≤ maxField layout) →
      ∀ k (h : k < items.length), TaggedValue.read layout r (index + k) =
        .ok (readBack layout (index + k) items[k]) := by
  intro items
  induction items with
  | nil => intro _ _ _ _ _ _ _ _ k h; cases h
  | cons i items ih =>
    intro offset index start hvalues hdir hstart hflags hplaced k hk
    simp only [List.length_cons] at hstart
    rw [values, List.flatMap_cons] at hvalues
    rw [directory] at hdir
    cases k with
    | succ k =>
      have h := ih (offset + i.data.length) (index + 1) start
        (hvalues.after _ (by simp; omega)) hdir.left (by omega)
        (fun j hj => hflags j (List.mem_cons_of_mem _ hj))
        (fun x hx => hplaced x (List.mem_cons_of_mem _ hx)) k (by simpa using hk)
      rw [show index + (k + 1) = index + 1 + k by omega]
      exact h
    | zero =>
      have hfi := hflags i List.mem_cons_self
      obtain ⟨ho, hs⟩ := hplaced (i, offset) List.mem_cons_self
      have hentry := hdir.after (layout.pageSize - 4 * (index + 1)) (by simp; omega)
      rw [directoryEntry] at hentry
      have hsize := hentry.left.readU16_eq .tagDirectory
      have hoff := (hentry.after _ (by simp; rfl)).readU16_eq .tagDirectory
      have hslice := hvalues.left.slice_eq .taggedValue (length_storedData layout i).symm
      rw [Nat.add_zero, TaggedValue.read, if_neg (by omega)]
      simp only [bind, Except.bind, hsize, hoff, UInt16.ofNat_toNat, TaggedValue.locate,
        and_mask hs, offsetField_and_mask hfi ho, hslice, Except.map]
      unfold readBack
      split
      case isTrue => rfl
      case isFalse hl =>
        have hsmall : offset ≤ 0x1FFF := by simpa [maxField, hl] using ho
        rw [offsetField_flags hfi (by simpa using hl) hsmall, storedData, if_neg hl]
        rfl

/-- Each value ends before all of them do. -/
theorem placed_end {items : List Item} {offset : Nat} {x : Item × Nat}
    (hx : x ∈ placed items offset) :
    x.2 + x.1.data.length ≤ offset + (items.map (·.data.length)).sum := by
  induction items generalizing offset with
  | nil => cases hx
  | cons i items ih =>
    simp only [List.map_cons, List.sum_cons]
    rcases List.mem_cons.mp hx with rfl | hx
    · simp only
      omega
    · have h := ih hx
      omega

theorem placed_fits {p : Page} {layout : Layout} (h : p.Fits layout) :
    ∀ x ∈ placed p.items 0, x.2 ≤ maxField layout ∧ x.1.data.length ≤ maxField layout := by
  intro x hx
  have hend := placed_end hx
  have hroom := h.room
  have hbase := layout.le_pageHeaderSize
  have hpage := h.supported.bounds.2
  unfold maxField
  split
  case isTrue => omega
  case isFalse hl =>
    by_cases hlarge : layout.pageSize > 8192
    · have hsmall := h.small (by simpa using hl) hlarge x hx
      omega
    · omega

/-- The header as it is written: only the link, the count and the flags are filled in. -/
def headerOf (p : Page) : Ese.Page.Header :=
  ⟨⟨0⟩, ⟨p.next⟩, 0, 0, 0, .ofNat p.items.length, p.flags⟩

@[simp] theorem length_header (layout : Layout) (p : Page) :
    (header layout p).length = layout.pageHeaderSize := by
  have hle := layout.le_pageHeaderSize
  simp [header]
  omega

theorem length_encode {p : Page} {layout : Layout} (h : p.Fits layout) :
    (p.encode layout).length = layout.pageSize := by
  have hroom := h.room
  simp [encode, gap]
  omega

theorem read_header (layout : Layout) (p : Page) {r : Bytes} (h : Segment r 0 (header layout p)) :
    Ese.Page.Header.read r = .ok (headerOf p) := by
  have hle := layout.le_pageHeaderSize
  have hend := h.end_le
  rw [length_header] at hend
  have hpieces : header layout p = List.replicate 16 0 ++ (LittleEndian.encode 4 0 ++
      (LittleEndian.encode 4 p.next.toNat ++ (LittleEndian.encode 4 0 ++ (LittleEndian.encode 2 0 ++
      (LittleEndian.encode 2 0 ++ (LittleEndian.encode 2 0 ++
      (LittleEndian.encode 2 p.items.length ++ (LittleEndian.encode 4 p.flags.toNat ++
        List.replicate (layout.pageHeaderSize - 40) 0)))))))) := by
    simp only [header, List.append_assoc]
    rfl
  rw [hpieces] at h
  have hprevious := h.after 16 rfl
  have hnext := hprevious.after 20 rfl
  have hfather := hnext.after 24 rfl
  have havailable := hfather.after 28 rfl
  have hfirst := (havailable.after 30 rfl).after 32 rfl
  have hcount := hfirst.after 34 rfl
  have hflags := hcount.after 36 rfl
  have hwhole : slice r 0 Ese.Page.Header.size .pageHeader = .ok ((r.drop 0).take 40) :=
    slice_eq_ok_iff.mpr ⟨show 0 + 40 ≤ r.length by omega, rfl⟩
  unfold Ese.Page.Header.read
  rw [hwhole, hprevious.left.readU32_eq, hnext.left.readU32_eq, hfather.left.readU32_eq,
    havailable.left.readU16_eq, hfirst.left.readU16_eq, hcount.left.readU16_eq,
    hflags.left.readU32_eq]
  simp [headerOf, bind, Except.bind, Pure.pure, Except.pure]

section

variable {p : Page} {layout : Layout}

/-- The parts of an encoded page, each at its place. -/
theorem segment_header (p : Page) (layout : Layout) :
    Segment (p.encode layout) 0 (header layout p) := by
  have h := Segment.whole (p.encode layout)
  rw [encode, List.append_assoc, List.append_assoc] at h ⊢
  exact h.left

theorem segment_values (p : Page) (layout : Layout) :
    Segment (p.encode layout) layout.pageHeaderSize (values layout p.items) := by
  have h := Segment.whole (p.encode layout)
  rw [encode, List.append_assoc, List.append_assoc] at h ⊢
  exact (h.after _ (by simp)).left

theorem segment_directory (h : p.Fits layout) :
    Segment (p.encode layout) (layout.pageSize - 4 * p.items.length)
      (directory layout p.items 0) := by
  have hroom := h.room
  have hw := Segment.whole (p.encode layout)
  rw [encode] at hw ⊢
  exact hw.after _ (by simp [gap]; omega)

/-- The page that is read from the bytes that were written. -/
theorem ofBlock_encode {data : ByteArray} (id : PageId)
    (hdata : data.data.toList = p.encode layout) :
    Ese.Page.ofBlock id layout data = .ok ⟨id, headerOf p, layout, data⟩ := by
  have hread : Ese.Page.Header.read data = Ese.Page.Header.read data.data.toList :=
    Page.Header.read_toBytes data
  have hheader := read_header layout p (segment_header p layout)
  rw [Ese.Page.ofBlock, hread, hdata, hheader]
  rfl

/-- All values of a page read back, in order. -/
theorem values_encode (h : p.Fits layout) (page : Ese.Page) (hlayout : page.layout = layout)
    (hdata : page.data.data.toList = p.encode layout) (hheader : page.header = headerOf p) :
    page.values = .ok (p.items.mapIdx (readBack layout)) := by
  have hroom := h.room
  have hpage := h.supported.bounds.2
  have hcount : page.tagCount = p.items.length := by
    rw [Ese.Page.tagCount, hheader]
    exact Field.toNat_ofNat (by omega)
  have hread := read_directory p.items 0 0 _ (segment_values p layout) (segment_directory h)
    (by omega) h.flags (placed_fits h)
  have htag : ∀ k ∈ List.range p.items.length,
      page.tag k = .ok (readBack layout k (p.items.getD k ⟨0, []⟩)) := by
    intro k hk
    have hlt := List.mem_range.mp hk
    have hk := hread k hlt
    rw [Nat.zero_add] at hk
    rw [Ese.Page.tag, TaggedValue.read_toBytes, hlayout]
    change TaggedValue.read layout page.data.data.toList k = _
    rw [hdata, hk, List.getD_eq_getElem _ _ hlt]
  rw [Ese.Page.values, hcount, Outcome.mapM_of_ok htag]
  congr 1
  refine List.ext_getElem (by simp) fun k h₁ h₂ => ?_
  have hlt : k < p.items.length := by simpa using h₂
  simp [hlt]

end

/-- With large tags the flags have their place in the second byte. -/
def Tidy (i : Item) : Prop :=
  match i.data with
  | _ :: b :: _ => b < 0x20
  | _ => i.flags = 0

/-- What is written without bits in the place of the flags is read as it is. -/
theorem readBack_eq {layout : Layout} {index : Nat} {i : Item} (hf : i.flags < 8)
    (ht : layout.hasLargeTags = true → Tidy i) :
    readBack layout index i = ⟨index, i.flags, i.data⟩ := by
  unfold readBack
  split
  case isFalse => rfl
  case isTrue hl =>
    have ht := ht hl
    obtain ⟨flags, data⟩ := i
    have hflags : flags.toNat < 8 := UInt8.lt_iff_toNat_lt.mp hf
    unfold storedData
    rw [if_pos hl]
    match data, ht with
    | [], ht =>
      obtain rfl : flags = 0 := ht
      rfl
    | [a], ht =>
      obtain rfl : flags = 0 := ht
      rfl
    | a :: b :: rest, ht =>
      have hb : b.toNat < 0x20 := UInt8.lt_iff_toNat_lt.mp ht
      have hpack := Field.pack5 hb hflags
      have htop : (b ||| (flags <<< 5)) >>> 5 = flags := by
        apply UInt8.toNat_inj.mp
        rw [Field.top3, hpack]
        omega
      have hlow : (b ||| (flags <<< 5)) &&& 0x1F = b := by
        apply UInt8.toNat_inj.mp
        rw [Field.low5, hpack]
        omega
      simp only [TaggedValue.inValueFlags, TaggedValue.clearInValueFlags, htop, hlow]

theorem mapIdx_readBack {α : Type} {layout : Layout} {item : α → Item} {as : List α}
    (hflags : ∀ a ∈ as, (item a).flags < 8)
    (htidy : layout.hasLargeTags = true → ∀ a ∈ as, Tidy (item a)) (first : Nat) :
    (as.map item).mapIdx (fun k => readBack layout (k + first)) =
      as.mapIdx fun k a => ⟨k + first, (item a).flags, (item a).data⟩ := by
  refine List.ext_getElem (by simp) fun k h₁ h₂ => ?_
  have hlt : k < as.length := by simpa using h₂
  simp only [List.getElem_mapIdx, List.getElem_map]
  exact readBack_eq (hflags _ (List.getElem_mem hlt)) fun hl => htidy hl _ (List.getElem_mem hlt)

end Build.Page

end Ese
