import Mathlib
import Ese.Proofs.Page.Keys
import Ese.Proofs.Page.RoundTrip
import Ese.Proofs.Tree.Order
/-!
Chains of leaf pages. What was put on the pages of a chain is found again by a walk from its first
page, entry after entry, each with the page and the tag it is under.
-/

namespace Ese.Build

/-- A leaf page of a chain: keys, and what is stored under them. -/
structure LeafPage (α : Type) where
  id : UInt32
  /-- Besides the leaf flag. -/
  flags : UInt32 := 0
  external : Bytes := []
  entries : List (Bytes × α)

structure Chain (α : Type) where
  pages : List (LeafPage α)
  /-- What the last page has in place of a next page. -/
  last : UInt32 := 0

def otherFlags : UInt32 :=
  Ese.Page.Flag.spaceTree ||| Ese.Page.Flag.index ||| Ese.Page.Flag.longValue

structure Located (α : Type) where
  page : PageId
  tag : Nat
  content : α

variable {α β : Type}

def LeafPage.map (f : α → β) (p : LeafPage α) : LeafPage β :=
  { p with entries := p.entries.map fun e => (e.1, f e.2) }

def LeafPage.page (p : LeafPage Bytes) (next : UInt32) : Page :=
  p.entries.foldl (fun page e => page.addLeaf e.1 e.2)
    ((Page.leaf.addFlags p.flags).withNext next |>.withExternalKey p.external)

def LeafPage.located (p : LeafPage α) : List (Located α) :=
  p.entries.mapIdx fun i e => ⟨⟨p.id⟩, i + 1, e.2⟩

namespace Chain

def map (f : α → β) (c : Chain α) : Chain β := { c with pages := c.pages.map (·.map f) }

def placeFrom (last : UInt32) : List (LeafPage Bytes) → List (UInt32 × Page)
  | [] => []
  | p :: rest => (p.id, p.page ((rest.head?.map (·.id)).getD last)) :: placeFrom last rest

def placed (c : Chain Bytes) : List (UInt32 × Page) := placeFrom c.last c.pages

def first? (c : Chain α) : Option UInt32 := c.pages.head?.map (·.id)

def located (c : Chain α) : List (Located α) := c.pages.flatMap LeafPage.located

def contents (c : Chain α) : List α := c.pages.flatMap fun p => p.entries.map (·.2)

/-- The chain ends, and its pages hold records under keys that leave room for flags. -/
structure Sound (c : Chain α) : Prop where
  ends : ¬ PageId.isValid ⟨c.last⟩
  records : ∀ p ∈ c.pages, p.flags &&& otherFlags = 0
  keys : ∀ p ∈ c.pages, ∀ e ∈ p.entries, e.1.length < 8192

instance (c : Chain α) : Decidable c.Sound :=
  decidable_of_iff
    (¬ PageId.isValid ⟨c.last⟩ ∧ (∀ p ∈ c.pages, p.flags &&& otherFlags = 0) ∧
      ∀ p ∈ c.pages, ∀ e ∈ p.entries, e.1.length < 8192)
    ⟨fun ⟨a, b, c⟩ => ⟨a, b, c⟩, fun ⟨a, b, c⟩ => ⟨a, b, c⟩⟩

theorem map_content_located (c : Chain α) : c.located.map (·.content) = c.contents := by
  have hpage : ∀ p : LeafPage α, p.located.map (·.content) = p.entries.map (·.2) := by
    intro p
    refine List.ext_getElem (by simp [LeafPage.located]) fun i h₁ h₂ => ?_
    simp [LeafPage.located]
  simp [located, contents, List.map_flatMap, hpage]

theorem located_map (c : Chain α) (f : α → β) :
    (c.map f).located = c.located.map fun x => ⟨x.page, x.tag, f x.content⟩ := by
  have hpage : ∀ p : LeafPage α, (p.map f).located =
      p.located.map fun x => ⟨x.page, x.tag, f x.content⟩ := by
    intro p
    refine List.ext_getElem (by simp [LeafPage.located, LeafPage.map]) fun i h₁ h₂ => ?_
    simp [LeafPage.located, LeafPage.map]
  simp [located, map, List.flatMap_map, List.map_flatMap, hpage]

end Chain

/-! What is on a page -/

def entryBytes (key payload : Bytes) : Bytes :=
  LittleEndian.encode 2 key.length ++ key ++ payload

def entryItem (e : Bytes × Bytes) : Item := ⟨0, entryBytes e.1 e.2⟩

theorem page_eq (p : LeafPage Bytes) (next : UInt32) : p.page next =
    ⟨Ese.Page.Flag.leaf ||| p.flags, next, ⟨0, p.external⟩ :: p.entries.map entryItem⟩ := by
  have hfold : ∀ (entries : List (Bytes × Bytes)) (page : Page),
      entries.foldl (fun page e => page.addLeaf e.1 e.2) page =
        { page with items := page.items ++ entries.map entryItem } := by
    intro entries
    induction entries with
    | nil => intro page; simp
    | cons e entries ih =>
      intro page
      rw [List.foldl_cons, ih]
      simp [Page.addLeaf, Page.add, entryItem, entryBytes]
  rw [LeafPage.page, hfold]
  rfl

theorem read_plain (index : Nat) {key : Bytes} (payload : Bytes) :
    KeyHeader.read ⟨index, 0, entryBytes key payload⟩ = .ok ⟨none, .ofNat key.length, 2⟩ := by
  have hsegment : Segment (entryBytes key payload) 0
      (LittleEndian.encode 2 key.length ++ (key ++ payload)) := by
    rw [← List.append_assoc]
    exact Segment.whole _
  have hplain : TaggedValue.hasCommonKey ⟨index, 0, entryBytes key payload⟩ = false := by
    change ((0 : UInt8) &&& 4 != 0) = false
    decide
  rw [KeyHeader.read, hplain, if_neg Bool.false_ne_true, hsegment.left.readU16_eq]
  rfl

theorem split_entry (page : Ese.Page) (external : Bytes) (index : Nat) {key : Bytes}
    (payload : Bytes) (hkey : key.length < 0x10000) :
    ∃ k, Tree.Leaf.split ⟨page, external, ⟨index, 0, entryBytes key payload⟩⟩ =
      .ok (k, payload) := by
  have hlocal : (UInt16.ofNat key.length).toNat = key.length := Field.toNat_ofNat hkey
  have hdata : (entryBytes key payload).drop 2 = key ++ payload := rfl
  obtain ⟨k, hsplit, -⟩ := Tree.split_of_header page 0
    (read_plain index payload) rfl (Nat.zero_le external.length) hlocal hdata
  exact ⟨k, hsplit⟩

/-! The flags of a leaf page with records -/

theorem or_and (a b m : UInt32) : (a ||| b) &&& m = (a &&& m) ||| (b &&& m) := by
  apply UInt32.toBitVec_inj.mp
  simp only [UInt32.toBitVec_and, UInt32.toBitVec_or]
  exact BitVec.and_or_distrib_right

theorem isLeaf_or (flags : UInt32) :
    ((Ese.Page.Flag.leaf ||| flags) &&& Ese.Page.Flag.leaf != 0) = true := by
  rw [or_and, bne_iff_ne]
  intro h
  exact absurd (UInt32.or_eq_zero_iff.mp h).1 (by decide)

theorem holdsRecords_or {flags : UInt32} (h : flags &&& otherFlags = 0) :
    ((Ese.Page.Flag.leaf ||| flags) &&& otherFlags == 0) = true := by
  rw [or_and, h]
  decide

structure Holds (l : Tree.Leaf) (x : Located Bytes) : Prop where
  page : l.page.id = x.page
  tag : l.value.index = x.tag
  records : l.page.header.holdsRecords
  payload : ∃ key, l.split = .ok (key, x.content)

theorem tidy_entry {e : Bytes × Bytes} (hkey : e.1.length < 8192) : Page.Tidy (entryItem e) := by
  change UInt8.ofNat (e.1.length / 256) < 0x20
  rw [UInt8.lt_iff_toNat_lt, Field.toNat_ofNat8 (by omega)]
  change e.1.length / 256 < 32
  omega

section

variable {read : Tree.Reader} {layout : Layout} {p : LeafPage Bytes} {next : UInt32}

theorem contents_page (hfits : (p.page next).Fits layout)
    (hkeys : ∀ e ∈ p.entries, e.1.length < 8192)
    (hread : read ⟨p.id⟩ = .ok (stored layout (p.id, p.page next))) :
    ∃ external, Tree.contents read ⟨p.id⟩ = .ok (stored layout (p.id, p.page next),
      external :: p.entries.mapIdx fun i e => ⟨i + 1, 0, entryBytes e.1 e.2⟩) := by
  have hcontents := contents_stored hfits hread
  have hentries : (p.entries.map entryItem).mapIdx (fun i => Page.readBack layout (i + 1)) =
      p.entries.mapIdx fun i e => ⟨i + 1, 0, entryBytes e.1 e.2⟩ :=
    Page.mapIdx_readBack (fun _ _ => show (0 : UInt8) < 8 by decide)
      (fun _ e he => tidy_entry (hkeys e he)) 1
  have hitems : (p.page next).items = ⟨0, p.external⟩ :: p.entries.map entryItem := by
    rw [page_eq]
  rw [hitems, List.mapIdx_cons, hentries] at hcontents
  exact ⟨Page.readBack layout 0 ⟨0, p.external⟩, hcontents⟩

theorem isLeaf_page (hfits : (p.page next).Fits layout)
    (hkeys : ∀ e ∈ p.entries, e.1.length < 8192) (hrecords : p.flags &&& otherFlags = 0)
    (hread : read ⟨p.id⟩ = .ok (stored layout (p.id, p.page next))) :
    Tree.IsLeaf read ⟨p.id⟩ ∧ Tree.nextPage read ⟨p.id⟩ = ⟨next⟩ ∧
      List.Forall₂ Holds (Tree.leafEntries read ⟨p.id⟩) p.located := by
  obtain ⟨external, hcontents⟩ := contents_page hfits hkeys hread
  have hleaf : (stored layout (p.id, p.page next)).header.isLeaf = true := by
    rw [page_eq]
    exact isLeaf_or p.flags
  have hholds : (stored layout (p.id, p.page next)).header.holdsRecords = true := by
    rw [page_eq]
    exact holdsRecords_or hrecords
  refine ⟨⟨_, _, _, hcontents, hleaf⟩, ?_, ?_⟩
  · rw [Tree.nextPage_of_contents hcontents, page_eq]
    rfl
  · rw [Tree.leafEntries_of_leaf hcontents hleaf, List.forall₂_iff_get]
    refine ⟨by simp [LeafPage.located], fun i h₁ h₂ => ?_⟩
    simp only [LeafPage.located, List.get_eq_getElem, List.getElem_map, List.getElem_mapIdx]
    exact ⟨rfl, rfl, hholds, split_entry _ _ _ _ (by
      have := hkeys _ (List.getElem_mem (by simpa using h₁))
      omega)⟩

end

/-! Whole chains -/

namespace Chain

section

variable {read : Tree.Reader} {layout : Layout}

theorem ids_placeFrom (last : UInt32) (pages : List (LeafPage Bytes)) :
    (placeFrom last pages).map (·.1) = pages.map (·.id) := by
  induction pages with
  | nil => rfl
  | cons p rest ih => rw [placeFrom, List.map_cons, List.map_cons, ih]

theorem mem_placeFrom {last : UInt32} {pages : List (LeafPage Bytes)} {p : LeafPage Bytes}
    (hp : p ∈ pages) : ∃ next, (p.id, p.page next) ∈ placeFrom last pages := by
  induction pages with
  | nil => exact absurd hp List.not_mem_nil
  | cons q rest ih =>
    rcases List.mem_cons.mp hp with rfl | hp
    · exact ⟨_, List.mem_cons_self⟩
    · obtain ⟨next, hnext⟩ := ih hp
      exact ⟨next, List.mem_cons_of_mem _ hnext⟩

/-- What is on a page is no longer than a page. -/
theorem length_content_le {c : Chain Bytes} (hfits : ∀ x ∈ c.placed, x.2.Fits layout) :
    ∀ r ∈ c.contents, r.length ≤ 0x8000 := by
  intro r hr
  obtain ⟨p, hp, hr⟩ := List.mem_flatMap.mp hr
  obtain ⟨e, he, rfl⟩ := List.mem_map.mp hr
  obtain ⟨next, hnext⟩ := mem_placeFrom hp
  have hfit : (p.page next).Fits layout := hfits _ hnext
  have hroom := hfit.room
  have hpage := hfit.supported.bounds.2
  have hitem : entryItem e ∈ (p.page next).items := by
    rw [page_eq]
    exact List.mem_cons_of_mem _ (List.mem_map_of_mem he)
  have hle : (entryItem e).data.length ≤ ((p.page next).items.map (·.data.length)).sum :=
    List.le_sum_of_mem (List.mem_map_of_mem hitem)
  have hlength : (entryItem e).data.length = 2 + e.1.length + e.2.length := by
    simp [entryItem, entryBytes, Nat.add_assoc]
  omega

/-- The pages are leaves, each leads to the next one, and they hold what the chain does. -/
theorem chained_placeFrom {last : UInt32} (hends : ¬ PageId.isValid ⟨last⟩) :
    ∀ {pages : List (LeafPage Bytes)}, Reads read layout (placeFrom last pages) →
      (∀ p ∈ pages, ∀ e ∈ p.entries, e.1.length < 8192) →
      (∀ p ∈ pages, p.flags &&& otherFlags = 0) →
      (∀ id ∈ pages.map fun p => (⟨p.id⟩ : PageId), Tree.IsLeaf read id) ∧
        Tree.Chained read (pages.map fun p => ⟨p.id⟩) ∧
        List.Forall₂ Holds ((pages.map fun p => ⟨p.id⟩).flatMap (Tree.leafEntries read))
          (pages.flatMap LeafPage.located) := by
  intro pages
  induction pages with
  | nil => exact fun _ _ _ => ⟨by simp, trivial, .nil⟩
  | cons p rest ih =>
    intro hreads hkeys hrecords
    obtain ⟨hfits, hread⟩ := hreads _ List.mem_cons_self
    obtain ⟨hleaf, hnext, hholds⟩ := isLeaf_page hfits (hkeys p List.mem_cons_self)
      (hrecords p List.mem_cons_self) hread
    obtain ⟨hleaves, hchained, hrest⟩ := ih (fun x hx => hreads x (List.mem_cons_of_mem _ hx))
      (fun q hq => hkeys q (List.mem_cons_of_mem p hq))
      (fun q hq => hrecords q (List.mem_cons_of_mem p hq))
    refine ⟨?_, ?_, ?_⟩
    · intro id hid
      rcases List.mem_cons.mp hid with rfl | hid
      · exact hleaf
      · exact hleaves id hid
    · cases rest with
      | nil =>
        change ¬ PageId.isValid (Tree.nextPage read ⟨p.id⟩)
        rw [hnext]
        exact hends
      | cons q rest => exact ⟨hnext, hchained⟩
    · rw [List.map_cons, List.flatMap_cons, List.flatMap_cons]
      exact List.rel_append hholds hrest

/-- A walk from the first page of a chain that was placed succeeds, and delivers what the chain
holds. -/
theorem trail_chain {c : Chain Bytes} (h : c.Sound) (hreads : Reads read layout c.placed)
    (hnodup : (c.placed.map (·.1)).Nodup) (hvalid : ∀ x ∈ c.placed, PageId.isValid ⟨x.1⟩)
    {root : UInt32} (hroot : c.first? = some root) :
    ∃ steps, Tree.trail read ⟨root⟩ {} = (steps, .ok ()) ∧
      List.Forall₂ Holds (Tree.leaves steps) c.located := by
  obtain ⟨pages, last⟩ := c
  obtain ⟨hleaves, hchained, hholds⟩ := chained_placeFrom h.ends hreads h.keys h.records
  cases pages with
  | nil => cases hroot
  | cons p rest =>
    obtain rfl : p.id = root := Option.some.inj hroot
    have hids : (p :: rest).map (fun p => (⟨p.id⟩ : PageId)) =
        (placed ⟨p :: rest, last⟩).map fun x => ⟨x.1⟩ := by
      have h := congrArg (List.map PageId.mk) (ids_placeFrom last (p :: rest))
      rw [List.map_map, List.map_map] at h
      exact h.symm
    have htree : Tree.UniformTree read [(p :: rest).map fun p => ⟨p.id⟩] := by
      refine ⟨?_, ?_, by simp [Tree.maxDepth], hleaves, by simp, ?_⟩
      · rw [List.flatten_singleton, hids]
        have hmap := hnodup.map (f := PageId.mk) fun a b h => congrArg PageId.value h
        rwa [List.map_map] at hmap
      · rw [List.flatten_singleton, hids]
        intro id hid
        obtain ⟨x, hx, rfl⟩ := List.mem_map.mp hid
        exact hvalid x hx
      · intro level hlevel
        obtain rfl := Option.some.inj hlevel
        exact hchained
    obtain ⟨steps, htrail, -, hdelivered⟩ := Tree.trail_uniformTree htree
    refine ⟨steps, htrail, ?_⟩
    rw [hdelivered]
    exact hholds

end

end Chain

end Ese.Build
