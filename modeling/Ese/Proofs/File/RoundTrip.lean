import Mathlib
import Ese.Proofs.File.Image
/-!
Files round trip. Every page number up to the largest that was placed has a block in the image: that
of the page placed there last, or zeros, which are the block of a page without tags. So an image
opens to a file that gives all its pages back, and nothing behind them.
-/

namespace Ese.Build

namespace Page

instance : (i : Item) → Decidable (Tidy i)
  | ⟨flags, []⟩ => inferInstanceAs (Decidable (flags = 0))
  | ⟨flags, [_]⟩ => inferInstanceAs (Decidable (flags = 0))
  | ⟨_, _ :: b :: _⟩ => inferInstanceAs (Decidable (b < 0x20))

def blank : Page := { flags := 0, items := [] }

theorem fits_blank {layout : Layout} (h : layout.Supported) : blank.Fits layout where
  supported := h
  room := by
    have hsize := h.bounds
    simp only [blank, List.map_nil, List.sum_nil, List.length_nil, Layout.pageHeaderSize]
    split <;> omega
  flags _ hi := absurd hi List.not_mem_nil
  small _ _ _ hx := absurd hx List.not_mem_nil

theorem encode_blank {layout : Layout} (h : layout.Supported) :
    blank.encode layout = List.replicate layout.pageSize 0 := by
  have hlen := length_encode (fits_blank h)
  have hzero : ∀ b ∈ blank.encode layout, b = 0 := by
    have hword : LittleEndian.encode 4 0 = List.replicate 4 0 := rfl
    have hhalf : LittleEndian.encode 2 0 = List.replicate 2 0 := rfl
    intro b hb
    simp only [encode, header, blank, values, directory, List.length_nil, UInt32.toNat_zero, hword,
      hhalf, List.mem_append, List.mem_replicate, List.flatMap_nil, List.append_nil] at hb
    tauto
  rw [← hlen]
  exact List.eq_replicate_iff.mpr ⟨rfl, hzero⟩

end Page

namespace File

variable {f : File} {layout : Layout} {pages : List (UInt32 × Page)}

theorem ofBytes_ofPages (h : layout.Supported) (hfits : ∀ x ∈ pages, x.2.Fits layout) :
    Ese.File.ofBytes (ofPages layout pages).build = .ok (ofPages layout pages).opened :=
  ofBytes_build (by rwa [layout_ofPages]) (sized_ofPages hfits)

/-! How far a file goes -/

theorem pageCount_opened (h : f.layout.Supported) (hs : f.Sized) : f.opened.pageCount = f.last := by
  have hpos : 0 < f.layout.pageSize := by
    have hsize := h.bounds
    omega
  have hsize : f.opened.size = (f.last + 2) * f.layout.pageSize := length_build h hs
  rw [Ese.File.pageCount, hsize, Ese.File.pageSize, layout_opened h, Nat.mul_div_cancel _ hpos,
    Nat.add_sub_cancel]

/-- There are no bytes behind the last page. -/
theorem readPage_beyond (h : f.layout.Supported) (hs : f.Sized) {id : PageId}
    (hid : f.last < id.value.toNat) : f.opened.readPage id =
      .error (.truncated .page (id.fileOffset f.layout.pageSize) f.layout.pageSize 0) := by
  have hpos : 0 < f.layout.pageSize := by
    have hsize := h.bounds
    omega
  have hend : f.build.data.toList.length ≤ id.fileOffset f.layout.pageSize := by
    rw [length_build h hs]
    exact Nat.mul_le_mul_right _ (by omega)
  have hempty : (block f.build (id.fileOffset f.layout.pageSize) f.layout.pageSize).data.toList =
      [] := by
    rw [toList_block, List.drop_eq_nil_of_le hend, List.take_nil]
  have hsize : (block f.build (id.fileOffset f.layout.pageSize) f.layout.pageSize).size = 0 :=
    congrArg List.length hempty
  unfold Ese.File.readPage Ese.File.pageOffset Ese.File.pageSize
  rw [layout_opened h]
  change (if (block f.build (id.fileOffset f.layout.pageSize) f.layout.pageSize).size <
    f.layout.pageSize then Except.error (DecodeError.truncated Part.page
      (id.fileOffset f.layout.pageSize) f.layout.pageSize
      (block f.build (id.fileOffset f.layout.pageSize) f.layout.pageSize).size) else _) = _
  rw [hsize, if_pos hpos]

def largestPlaced (pages : List (UInt32 × Page)) : Nat := (pages.map (·.1.toNat)).max?.getD 0

theorem last_ofPages : (ofPages layout pages).last = largestPlaced pages := by
  have hmax : ∀ ns : List Nat, ns.max?.getD 0 = ns.foldl max 0 := by
    intro ns
    cases ns with
    | nil => rfl
    | cons n ns =>
      rw [List.max?_cons', List.foldl_cons, Nat.zero_max]
      rfl
  have hlast : (ofPages layout pages).last = (pages.map (·.1.toNat)).reverse.foldl max 0 := by
    rw [last, ofPages_eq, ← List.map_reverse, ← List.map_reverse, List.foldl_map, List.foldl_map]
  rw [largestPlaced, hmax, hlast]
  exact (List.reverse_perm _).foldl_eq 0

/-! The blocks of the pages -/

def placedAt? (pages : List (UInt32 × Page)) (id : UInt32) : Option Page :=
  (pages.reverse.find? fun x => x.1 = id).map (·.2)

theorem placedAt?_mem {id : UInt32} {page : Page} (h : placedAt? pages id = some page) :
    (id, page) ∈ pages := by
  obtain ⟨x, hx, rfl⟩ := Option.map_eq_some_iff.mp h
  have hid : x.1 = id := by simpa using List.find?_some hx
  rw [← hid]
  exact List.mem_reverse.mp (List.mem_of_find?_eq_some hx)

theorem placedAt?_le {id : UInt32} {page : Page} (h : placedAt? pages id = some page) :
    id.toNat ≤ (ofPages layout pages).last := by
  refine le_last (b := (id, ⟨(page.encode layout).toArray⟩)) ?_
  rw [ofPages_eq, List.mem_reverse]
  exact List.mem_map.mpr ⟨(id, page), placedAt?_mem h, rfl⟩

theorem find?_blocks (id : UInt32) :
    (ofPages layout pages).blocks.find? (fun b => b.1.toNat = id.toNat) =
      (pages.reverse.find? fun x => x.1 = id).map fun x =>
        (x.1, ⟨(x.2.encode layout).toArray⟩) := by
  rw [ofPages_eq, ← List.map_reverse, List.find?_map]
  simp only [Function.comp_def, UInt32.toNat_inj]

theorem blockAt_placed {id : UInt32} {page : Page} (h : placedAt? pages id = some page) :
    ((ofPages layout pages).blockAt id.toNat).data.toList = page.encode layout := by
  obtain ⟨x, hx, rfl⟩ := Option.map_eq_some_iff.mp h
  rw [blockAt, blockOf, find?_blocks, hx]
  rfl

theorem blockAt_unplaced {id : UInt32} (hid : id ≠ 0) (h : placedAt? pages id = none) :
    ((ofPages layout pages).blockAt id.toNat).data.toList = List.replicate layout.pageSize 0 := by
  have hnone := Option.map_eq_none_iff.mp h
  have hpos : id.toNat ≠ 0 := fun h0 => hid (UInt32.toNat_inj.mp h0)
  rw [blockAt, blockOf, find?_blocks, hnone, Option.map_none]
  change (if id.toNat = 0 then _ else (⟨_⟩ : ByteArray)).data.toList = _
  rw [if_neg hpos, layout_ofPages]
  exact Array.toList_replicate

/-- A page number whose block is that of a page reads as that page. -/
theorem readPage_of_block (h : layout.Supported) (hfits : ∀ x ∈ pages, x.2.Fits layout)
    {id : UInt32} {page : Page} (hpage : page.Fits layout)
    (hid : id.toNat ≤ (ofPages layout pages).last)
    (hblock : ((ofPages layout pages).blockAt id.toNat).data.toList = page.encode layout) :
    ∃ p, (ofPages layout pages).opened.readPage ⟨id⟩ = .ok p ∧ p.header = Page.headerOf page ∧
      p.data.data.toList = page.encode layout ∧
      p.values = .ok (page.items.mapIdx (Page.readBack layout)) := by
  have hsupported : (ofPages layout pages).layout.Supported := by rwa [layout_ofPages]
  have hread := readPage_build hsupported (sized_ofPages hfits) ⟨id⟩ hid
  rw [layout_ofPages, Page.ofBlock_encode ⟨id⟩ hblock] at hread
  exact ⟨_, hread, rfl, hblock, Page.values_encode hpage _ rfl hblock rfl⟩

/-! What a file gives back -/

/-- The file holds the pages, each under the number where it was placed last. -/
structure GivesBack (layout : Layout) (pages : List (UInt32 × Page)) (file : Ese.File) : Prop where
  sameLayout : file.layout = layout
  count : file.pageCount = largestPlaced pages
  placed : ∀ id page, placedAt? pages id = some page → ∃ p, file.readPage ⟨id⟩ = .ok p ∧
    p.header.next = ⟨page.next⟩ ∧ p.header.flags = page.flags ∧ p.tagCount = page.items.length ∧
    p.values = .ok (page.items.mapIdx fun index i => ⟨index, i.flags, i.data⟩)
  /-- Between the pages there are zeros, which read as a page without tags. -/
  unplaced : ∀ id, id ≠ 0 → id.toNat ≤ file.pageCount → placedAt? pages id = none →
    ∃ p, file.readPage ⟨id⟩ = .ok p ∧ p.data.data.toList = List.replicate layout.pageSize 0 ∧
      p.tagCount = 0 ∧ p.values = .ok []
  beyond : ∀ id, file.pageCount < id.toNat → file.readPage ⟨id⟩ =
    .error (.truncated .page ((id.toNat + 1) * layout.pageSize) layout.pageSize 0)

/-- An image opens to a file that gives back the pages placed in it. -/
theorem givesBack_build (layout : Layout) (pages : List (UInt32 × Page)) (h : layout.Supported)
    (hfits : ∀ x ∈ pages, x.2.Fits layout)
    (htidy : layout.hasLargeTags = true → ∀ x ∈ pages, ∀ i ∈ x.2.items, Page.Tidy i) :
    ∃ file, Ese.File.ofBytes (ofPages layout pages).build = .ok file ∧
      GivesBack layout pages file := by
  have hsupported : (ofPages layout pages).layout.Supported := by rwa [layout_ofPages]
  have hsized := sized_ofPages hfits
  have hcount := pageCount_opened hsupported hsized
  refine ⟨_, ofBytes_ofPages h hfits, ?_, hcount.trans last_ofPages,
    fun id page hplaced => ?_, fun id hid hle hnone => ?_, fun id hlt => ?_⟩
  · rw [layout_opened hsupported, layout_ofPages]
  · have hmem := placedAt?_mem hplaced
    have hpage := hfits _ hmem
    obtain ⟨p, hread, hheader, -, hvalues⟩ := readPage_of_block h hfits hpage
      (placedAt?_le hplaced) (blockAt_placed hplaced)
    have htags : p.tagCount = page.items.length := by
      have hroom := hpage.room
      have hsize := h.bounds
      rw [Ese.Page.tagCount, hheader]
      exact Field.toNat_ofNat (by omega)
    have hsame :
        (page.items.map fun i => i).mapIdx (fun index => Page.readBack layout (index + 0)) =
          page.items.mapIdx fun index i => ⟨index, i.flags, i.data⟩ :=
      Page.mapIdx_readBack hpage.flags (fun hl => htidy hl _ hmem) 0
    rw [List.map_id'] at hsame
    exact ⟨p, hread, by rw [hheader]; rfl, by rw [hheader]; rfl, htags,
      hvalues.trans (congrArg _ hsame)⟩
  · obtain ⟨p, hread, hheader, hdata, hvalues⟩ := readPage_of_block h hfits (Page.fits_blank h)
      (hle.trans hcount.le) ((blockAt_unplaced hid hnone).trans (Page.encode_blank h).symm)
    exact ⟨p, hread, hdata.trans (Page.encode_blank h), by rw [Ese.Page.tagCount, hheader]; rfl,
      hvalues⟩
  · rw [hcount] at hlt
    have hlt' : (ofPages layout pages).last < (PageId.mk id).value.toNat := hlt
    have hread := readPage_beyond hsupported hsized hlt'
    rwa [layout_ofPages] at hread

/-- Pages with flagged and empty values; the first gives way to the third. -/
def replacedPages : List (UInt32 × Page) :=
  [(3, Page.branch.addChild [1] 2), (1, (Page.leaf.withNext 3).addCommonLeaf 1 [7] [8]),
    (3, Page.leaf.withExternalKey [0xAA, 0x0B])]

theorem givesBack_replaced :
    ∃ file, Ese.File.ofBytes (ofPages ⟨0x620, 0x11, 16384⟩ replacedPages).build = .ok file ∧
      GivesBack ⟨0x620, 0x11, 16384⟩ replacedPages file :=
  givesBack_build ⟨0x620, 0x11, 16384⟩ replacedPages (by decide) (by decide) (by decide)

end File

end Ese.Build
