import Mathlib
import Ese.Build.File
import Ese.File.Basic
import Ese.Proofs.Keyed
import Ese.Proofs.Page.RoundTrip
/-!
File images. An image is the header block and then one block for each page number, so with blocks of
one size the block of a page is a segment at its file offset; the file that was built opens, and
reads the pages that were placed.
-/

namespace Ese

namespace Segment

variable {r a : Bytes} {offset : Nat}

theorem extend_right (h : Segment r offset a) (more : Bytes) : Segment (r ++ more) offset a := by
  obtain ⟨pre, post, rfl, rfl⟩ := h
  exact ⟨pre, post ++ more, by simp, rfl⟩

theorem extend_left (h : Segment r offset a) (before : Bytes) :
    Segment (before ++ r) (before.length + offset) a := by
  obtain ⟨pre, post, rfl, rfl⟩ := h
  exact ⟨before ++ pre, post, by simp, by simp⟩

/-- Pieces of one size stand at multiples of it. -/
theorem flatMap_range {g : Nat → Bytes} {size : Nat} (hg : ∀ i, (g i).length = size) {n i : Nat}
    (hi : i < n) : Segment ((List.range n).flatMap g) (i * size) (g i) := by
  induction n with
  | zero => omega
  | succ n ih =>
    rw [List.range_succ, List.flatMap_append, List.flatMap_singleton]
    rcases Nat.lt_succ_iff_lt_or_eq.mp hi with hlt | rfl
    · exact (ih hlt).extend_right _
    · refine ⟨(List.range i).flatMap g, [], by simp, ?_⟩
      simp [List.length_flatMap, hg]

end Segment

namespace Build.File

def Sized (f : File) : Prop := ∀ b ∈ f.blocks, b.2.size = f.layout.pageSize

def blockAt (f : File) (id : Nat) : ByteArray :=
  f.blockOf ⟨(header f.layout).toArray⟩ ⟨Array.replicate f.layout.pageSize 0⟩ id

theorem toList_build (f : File) : f.build.data.toList =
    header f.layout ++ (List.range (f.last + 1)).flatMap fun id => (f.blockAt id).data.toList := by
  have hfold : ∀ (ids : List Nat) (image : ByteArray),
      (ids.foldl (fun image id => image ++ f.blockAt id) image).data.toList =
        image.data.toList ++ ids.flatMap fun id => (f.blockAt id).data.toList := by
    intro ids
    induction ids with
    | nil => intro image; simp
    | cons id ids ih =>
      intro image
      rw [List.foldl_cons, ih, ByteArray.toList_data_append, List.flatMap_cons, List.append_assoc]
  exact hfold _ _

section

variable {f : File}

theorem length_header (h : f.layout.Supported) : (header f.layout).length = f.layout.pageSize := by
  have hsize := h.bounds
  simp only [header, List.length_append, List.length_replicate, LittleEndian.length_encode]
  omega

theorem length_blockAt (h : f.layout.Supported) (hs : f.Sized) (id : Nat) :
    (f.blockAt id).data.toList.length = f.layout.pageSize := by
  unfold blockAt blockOf
  split
  case h_1 b hb => exact hs b (List.mem_of_find?_eq_some hb)
  case h_2 =>
    split
    · exact length_header h
    · simp

theorem segment_blockAt (h : f.layout.Supported) (hs : f.Sized) {id : Nat} (hid : id ≤ f.last) :
    Segment f.build.data.toList ((id + 1) * f.layout.pageSize) (f.blockAt id).data.toList := by
  rw [toList_build]
  have hseg := (Segment.flatMap_range (length_blockAt h hs) (Nat.lt_succ_of_le hid)).extend_left
    (header f.layout)
  have hoffset : (id + 1) * f.layout.pageSize = f.layout.pageSize + id * f.layout.pageSize := by
    rw [Nat.succ_mul, Nat.add_comm]
  rw [length_header h] at hseg
  rw [hoffset]
  exact hseg

theorem length_build (h : f.layout.Supported) (hs : f.Sized) :
    f.build.data.toList.length = (f.last + 2) * f.layout.pageSize := by
  rw [toList_build, List.length_append, length_header h, List.length_flatMap]
  simp only [length_blockAt h hs, List.map_const', List.length_range, List.sum_replicate,
    smul_eq_mul]
  rw [show f.last + 2 = f.last + 1 + 1 from rfl, Nat.succ_mul (f.last + 1), Nat.add_comm]

def headerOf (layout : Layout) : Ese.File.Header :=
  ⟨0, layout.version, 0, .cleanShutdown, layout.revision, UInt32.ofNat layout.pageSize⟩

theorem layout_headerOf {layout : Layout} (h : layout.Supported) :
    (headerOf layout).layout = layout := by
  have hlt : layout.pageSize < 4294967296 := by
    have hsize := h.bounds
    omega
  have hsize : (UInt32.ofNat layout.pageSize).toNat = layout.pageSize :=
    UInt32.toNat_ofNat_of_lt' hlt
  rw [Ese.File.Header.layout, headerOf, hsize]

def opened (f : File) : Ese.File := ⟨f.build, headerOf f.layout⟩

theorem layout_opened (h : f.layout.Supported) : f.opened.layout = f.layout := layout_headerOf h

def fields (layout : Layout) : Bytes :=
  LittleEndian.encode 4 0 ++ (LittleEndian.encode 4 Ese.File.Header.signature.toNat ++
    (LittleEndian.encode 4 layout.version.toNat ++ (LittleEndian.encode 4 0 ++
    (List.replicate 36 0 ++ (LittleEndian.encode 4 cleanShutdown ++ (List.replicate 176 0 ++
    (LittleEndian.encode 4 layout.revision.toNat ++ LittleEndian.encode 4 layout.pageSize)))))))

theorem header_eq (layout : Layout) :
    header layout = fields layout ++ List.replicate (layout.pageSize - 240) 0 := by
  have hgap : List.replicate 40 (0 : UInt8) =
      LittleEndian.encode 4 0 ++ List.replicate 36 0 := rfl
  have hchecksum : List.replicate 4 (0 : UInt8) = LittleEndian.encode 4 0 := rfl
  simp only [header, fields, hgap, hchecksum, List.append_assoc]

theorem length_fields (layout : Layout) : (fields layout).length = Ese.File.Header.size := by
  simp only [fields, List.length_append, List.length_replicate, LittleEndian.length_encode]
  rfl

theorem read_fields {layout : Layout} (h : layout.Supported) {r : Bytes}
    (hlen : r.length = Ese.File.Header.size) (hr : Segment r 0 (fields layout)) :
    Ese.File.Header.read r = .ok (headerOf layout) := by
  have hlen : ByteSource.size r = 240 := hlen
  rw [fields] at hr
  have hsignature := hr.after 4 rfl
  have hversion := hsignature.after 8 rfl
  have htype := hversion.after 12 rfl
  have hstate := (htype.after 16 rfl).after 52 (by rw [List.length_replicate])
  have hrevision := (hstate.after 56 rfl).after 232 (by rw [List.length_replicate])
  have hsize := hrevision.after 236 rfl
  have hmem : UInt32.ofNat layout.pageSize ∈ Ese.File.Header.pageSizes := by
    unfold Layout.Supported at h
    simp only [List.mem_cons, List.not_mem_nil, or_false] at h
    rcases h with h | h | h | h <;> rw [h] <;> decide
  have hfields : Ese.File.Header.readFields r (.ofNat layout.pageSize) = .ok (headerOf layout) := by
    unfold Ese.File.Header.readFields
    rw [hr.left.readU32_eq, hversion.left.readU32_eq, htype.left.readU32_eq,
      hstate.left.readU32_eq, hrevision.left.readU32_eq, UInt32.ofNat_toNat, UInt32.ofNat_toNat]
    rfl
  rw [Ese.File.Header.read, hlen, if_neg (by decide), hsignature.left.readU32_eq, hsize.readU32_eq]
  simp only [bind, Except.bind, UInt32.ofNat_toNat, ne_eq, not_true_eq_false, ↓reduceIte, hmem,
    hfields]

theorem ofBytes_build (h : f.layout.Supported) (hs : f.Sized) :
    Ese.File.ofBytes f.build = .ok f.opened := by
  have hsize := h.bounds
  have hprefix : ByteSource.read f.build 0 Ese.File.Header.size = fields f.layout := by
    rw [ByteSource.read_eq]
    change (f.build.data.toList.drop 0).take _ = _
    rw [toList_build, header_eq, List.append_assoc, List.drop_zero, ← length_fields f.layout,
      List.take_left]
  have hfile : ByteSource.size f.build = (f.last + 2) * f.layout.pageSize := length_build h hs
  have henough : ¬ ByteSource.size f.build < 2 * (headerOf f.layout).layout.pageSize := by
    rw [hfile, layout_headerOf h, not_lt]
    exact Nat.mul_le_mul_right _ (Nat.le_add_left 2 f.last)
  rw [Ese.File.ofBytes, hprefix, read_fields h (length_fields _) (Segment.whole _)]
  change (if ByteSource.size f.build < 2 * (headerOf f.layout).layout.pageSize then _ else _) = _
  rw [if_neg henough]
  rfl

theorem readPage_build (h : f.layout.Supported) (hs : f.Sized) (id : PageId)
    (hid : id.value.toNat ≤ f.last) :
    f.opened.readPage id = Ese.Page.ofBlock id f.layout (f.blockAt id.value.toNat) := by
  have hlen := length_blockAt h hs id.value.toNat
  have hblock : block f.build ((id.value.toNat + 1) * f.layout.pageSize) f.layout.pageSize =
      f.blockAt id.value.toNat := by
    apply ByteArray.ext
    apply Array.toList_inj.mp
    rw [toList_block, ← (segment_blockAt h hs hid).take_drop, hlen]
  have hsize : ¬ (f.blockAt id.value.toNat).size < f.layout.pageSize := by
    change ¬ (f.blockAt id.value.toNat).data.toList.length < _
    rw [hlen]
    exact Nat.lt_irrefl _
  unfold Ese.File.readPage Ese.File.pageOffset Ese.File.pageSize PageId.fileOffset
  rw [layout_opened h]
  change (if (block f.build ((id.value.toNat + 1) * f.layout.pageSize) f.layout.pageSize).size <
    f.layout.pageSize then _ else Ese.Page.ofBlock id f.layout
      (block f.build ((id.value.toNat + 1) * f.layout.pageSize) f.layout.pageSize)) = _
  rw [hblock, if_neg hsize]

theorem le_last {b : UInt32 × ByteArray} (hb : b ∈ f.blocks) : b.1.toNat ≤ f.last := by
  have hfold : ∀ (blocks : List (UInt32 × ByteArray)) (n : Nat),
      n ≤ blocks.foldl (fun n b => max n b.1.toNat) n ∧
        ∀ b ∈ blocks, b.1.toNat ≤ blocks.foldl (fun n b => max n b.1.toNat) n := by
    intro blocks
    induction blocks with
    | nil => intro n; simp
    | cons c blocks ih =>
      intro n
      obtain ⟨hstart, hmem⟩ := ih (max n c.1.toNat)
      refine ⟨(Nat.le_max_left _ _).trans hstart, fun b hb => ?_⟩
      rcases List.mem_cons.mp hb with rfl | hb
      · exact (Nat.le_max_right _ _).trans hstart
      · exact hmem b hb
  exact (hfold f.blocks 0).2 b hb

theorem blockAt_of_mem (hnodup : (f.blocks.map (·.1)).Nodup) {b : UInt32 × ByteArray}
    (hb : b ∈ f.blocks) : f.blockAt b.1.toNat = b.2 := by
  have hids : (f.blocks.map (·.1.toNat)).Nodup := by
    have hmap := hnodup.map (f := UInt32.toNat) fun _ _ => UInt32.toNat_inj.mp
    rwa [List.map_map] at hmap
  have hfind : f.blocks.find? (fun c => c.1.toNat = b.1.toNat) = some b := Keyed.find?_eq hids hb
  rw [blockAt, blockOf, hfind]

end

/-! Files of pages -/

def ofPages (layout : Layout) (pages : List (UInt32 × Page)) : File :=
  pages.foldl (fun f x => f.place x.1 x.2) { layout }

section

variable {layout : Layout} {pages : List (UInt32 × Page)}

theorem ofPages_eq (layout : Layout) (pages : List (UInt32 × Page)) : ofPages layout pages =
    ⟨layout, (pages.map fun x => (x.1, ⟨(x.2.encode layout).toArray⟩)).reverse⟩ := by
  have hfold : ∀ (pages : List (UInt32 × Page)) (f : File),
      pages.foldl (fun f x => f.place x.1 x.2) f = ⟨f.layout,
        (pages.map fun x => (x.1, ⟨(x.2.encode f.layout).toArray⟩)).reverse ++ f.blocks⟩ := by
    intro pages
    induction pages with
    | nil => intro f; rfl
    | cons x pages ih =>
      intro f
      rw [List.foldl_cons, ih]
      simp [place, placeBlock]
  rw [ofPages, hfold, List.append_nil]

theorem layout_ofPages : (ofPages layout pages).layout = layout := by
  rw [ofPages_eq]

theorem sized_ofPages (hfits : ∀ x ∈ pages, x.2.Fits layout) : (ofPages layout pages).Sized := by
  intro b hb
  rw [ofPages_eq] at hb ⊢
  obtain ⟨x, hx, rfl⟩ := List.mem_map.mp (List.mem_reverse.mp hb)
  exact Page.length_encode (hfits x hx)

/-- The pages placed under different numbers are the pages that are read. -/
theorem readPage_ofPages (h : layout.Supported) (hfits : ∀ x ∈ pages, x.2.Fits layout)
    (hnodup : (pages.map (·.1)).Nodup) {x : UInt32 × Page} (hx : x ∈ pages) :
    (ofPages layout pages).opened.readPage ⟨x.1⟩ =
      .ok ⟨⟨x.1⟩, Page.headerOf x.2, layout, ⟨(x.2.encode layout).toArray⟩⟩ := by
  have hb : (x.1, (⟨(x.2.encode layout).toArray⟩ : ByteArray)) ∈ (ofPages layout pages).blocks := by
    rw [ofPages_eq, List.mem_reverse]
    exact List.mem_map_of_mem hx
  have hids : ((ofPages layout pages).blocks.map (·.1)).Nodup := by
    rw [ofPages_eq, List.map_reverse, List.nodup_reverse, List.map_map]
    exact hnodup
  have hsupported : (ofPages layout pages).layout.Supported := by rwa [layout_ofPages]
  have hread := readPage_build hsupported (sized_ofPages hfits) ⟨x.1⟩ (le_last hb)
  rw [hread, layout_ofPages, blockAt_of_mem hids hb]
  exact Page.ofBlock_encode ⟨x.1⟩ rfl

end

end Build.File

end Ese
