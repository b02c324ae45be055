import Mathlib
import Ese.Proofs.File.RoundTrip
import Ese.Proofs.Tree.Chain
import Ese.Proofs.Tree.Harvest
/-!
Shared keys. An entry may leave out the first bytes of its key and take them from the external key
of its page. With large tags the second byte of the external key is not read back whole: its upper
three bits are taken for flags, and the keys that share it come out with these bits cleared.
-/

namespace Ese

namespace Build

/-! Pages of entries that share key bytes -/

/-- An entry of a leaf page: a key, whole or behind bytes of the external key, and a payload. -/
inductive KeyedEntry where
  | plain (key payload : Bytes)
  | common (shared : UInt16) (key payload : Bytes)

namespace KeyedEntry

def addTo (p : Page) : KeyedEntry → Page
  | plain key payload => p.addLeaf key payload
  | common shared key payload => p.addCommonLeaf shared key payload

def payload : KeyedEntry → Bytes
  | plain _ payload | common _ _ payload => payload

def keyFrom (external : Bytes) : KeyedEntry → Bytes
  | plain key _ => key.take Key.maxLength
  | common shared key _ => (external.take shared.toNat ++ key).take Key.maxLength

/-- The sizes leave the place of the flags free, and no more is shared than there is. -/
def Sound (external : Bytes) : KeyedEntry → Prop
  | plain key _ => key.length < 8192
  | common shared key _ =>
    shared.toNat ≤ external.length ∧ shared.toNat < 8192 ∧ key.length < 0x10000

instance (external : Bytes) : (e : KeyedEntry) → Decidable (e.Sound external)
  | plain key _ => inferInstanceAs (Decidable (key.length < 8192))
  | common shared key _ => inferInstanceAs (Decidable
      (shared.toNat ≤ external.length ∧ shared.toNat < 8192 ∧ key.length < 0x10000))

def item : KeyedEntry → Item
  | plain key payload => ⟨0, entryBytes key payload⟩
  | common shared key payload =>
    ⟨TaggedValue.commonFlag, LittleEndian.encode 2 shared.toNat ++ entryBytes key payload⟩

end KeyedEntry

def keyedPage (external : Bytes) (entries : List KeyedEntry) : Page :=
  entries.foldl KeyedEntry.addTo (Page.leaf.withExternalKey external)

theorem keyedPage_eq (external : Bytes) (entries : List KeyedEntry) : keyedPage external entries =
    ⟨Ese.Page.Flag.leaf, 0, ⟨0, external⟩ :: entries.map KeyedEntry.item⟩ := by
  have hfold : ∀ (entries : List KeyedEntry) (page : Page),
      entries.foldl KeyedEntry.addTo page =
        { page with items := page.items ++ entries.map KeyedEntry.item } := by
    intro entries
    induction entries with
    | nil => intro page; simp
    | cons e entries ih =>
      intro page
      rw [List.foldl_cons, ih]
      cases e <;>
        simp [KeyedEntry.addTo, KeyedEntry.item, Page.addLeaf, Page.addCommonLeaf, Page.add,
          entryBytes]
  rw [keyedPage, hfold]
  rfl

/-- What is left of an external key that is read back. -/
def keptKey (layout : Layout) (external : Bytes) : Bytes :=
  if layout.hasLargeTags then TaggedValue.clearInValueFlags external else external

theorem length_keptKey (layout : Layout) (external : Bytes) :
    (keptKey layout external).length = external.length := by
  unfold keptKey TaggedValue.clearInValueFlags
  split
  · split <;> rfl
  · rfl

theorem readBack_external (layout : Layout) (external : Bytes) :
    ∃ flags, Page.readBack layout 0 ⟨0, external⟩ = ⟨0, flags, keptKey layout external⟩ := by
  unfold Page.readBack keptKey
  split
  case isFalse => exact ⟨0, rfl⟩
  case isTrue hl =>
    have hstored : Page.storedData layout ⟨0, external⟩ = external := by
      rw [Page.storedData, if_pos hl]
      rcases external with _ | ⟨a, _ | ⟨b, rest⟩⟩
      · rfl
      · rfl
      · change a :: (b ||| ((0 : UInt8) <<< 5)) :: rest = _
        rw [show (0 : UInt8) <<< 5 = 0 from rfl, UInt8.or_zero]
    rw [hstored]
    exact ⟨_, rfl⟩

theorem keptKey_eq {layout : Layout} {external : Bytes}
    (h : layout.hasLargeTags = true → Page.Tidy ⟨0, external⟩) :
    keptKey layout external = external := by
  obtain ⟨flags, hread⟩ := readBack_external layout external
  rw [Page.readBack_eq (show (0 : UInt8) < 8 by decide) h] at hread
  exact (congrArg TaggedValue.data hread).symm

/-! What is read of an entry -/

section

variable {external : Bytes} {e : KeyedEntry}

theorem flags_item (e : KeyedEntry) : e.item.flags < 8 := by
  cases e with
  | plain => exact show (0 : UInt8) < 8 by decide
  | common => exact show TaggedValue.commonFlag < 8 by decide

theorem tidy_size {n : Nat} (hn : n < 8192) (flags : UInt8) (rest : Bytes) :
    Page.Tidy ⟨flags, LittleEndian.encode 2 n ++ rest⟩ := by
  change UInt8.ofNat (n / 256) < 0x20
  rw [UInt8.lt_iff_toNat_lt, Field.toNat_ofNat8 (by omega)]
  change n / 256 < 32
  omega

theorem tidy_item (h : e.Sound external) : Page.Tidy e.item := by
  cases e with
  | plain key payload =>
    have hbytes : entryBytes key payload = LittleEndian.encode 2 key.length ++ (key ++ payload) :=
      List.append_assoc _ _ _
    rw [KeyedEntry.item, hbytes]
    exact tidy_size h 0 _
  | common shared key payload => exact tidy_size h.2.1 _ _

def Gives (external : Bytes) (e : KeyedEntry) (l : Tree.Leaf) : Prop :=
  ∃ key, l.split = .ok (key, e.payload) ∧ key.bytes = e.keyFrom external

theorem read_common (index : Nat) (shared : UInt16) {key : Bytes} (payload : Bytes) :
    KeyHeader.read ⟨index, TaggedValue.commonFlag,
        LittleEndian.encode 2 shared.toNat ++ entryBytes key payload⟩ =
      .ok ⟨some shared, .ofNat key.length, 4⟩ := by
  have hsegment : Segment (LittleEndian.encode 2 shared.toNat ++ entryBytes key payload) 0
      (LittleEndian.encode 2 shared.toNat ++
        (LittleEndian.encode 2 key.length ++ (key ++ payload))) := by
    rw [← List.append_assoc _ key payload]
    exact Segment.whole _
  have hcommon : TaggedValue.hasCommonKey ⟨index, TaggedValue.commonFlag,
      LittleEndian.encode 2 shared.toNat ++ entryBytes key payload⟩ = true := by
    change (TaggedValue.commonFlag &&& TaggedValue.commonFlag != 0) = true
    decide
  rw [KeyHeader.read, if_pos hcommon, hsegment.left.readU16_eq,
    (hsegment.after 2 rfl).left.readU16_eq, UInt16.ofNat_toNat]
  rfl

/-- With an external key that is read as `seen`, shared bytes are those of `seen`. -/
theorem gives_item (page : Ese.Page) (index : Nat) {seen : Bytes}
    (hseen : seen.length = external.length) (h : e.Sound external) :
    Gives seen e ⟨page, seen, ⟨index, e.item.flags, e.item.data⟩⟩ := by
  cases e with
  | plain key payload =>
    have hlen : key.length < 8192 := h
    have hlocal : (UInt16.ofNat key.length).toNat = key.length := Field.toNat_ofNat (by omega)
    have hdata : (entryBytes key payload).drop 2 = key ++ payload := rfl
    exact Tree.split_of_header page 0 (read_plain index payload) rfl (Nat.zero_le seen.length)
      hlocal
      hdata
  | common shared key payload =>
    obtain ⟨hshared, -, hlen⟩ := h
    have hlocal : (UInt16.ofNat key.length).toNat = key.length := Field.toNat_ofNat hlen
    have hdata : (LittleEndian.encode 2 shared.toNat ++ entryBytes key payload).drop 4 =
        key ++ payload := rfl
    exact Tree.split_of_header page shared.toNat (read_common index shared payload) rfl
      (hseen ▸ hshared) hlocal hdata

end

/-! Pages that are read -/

section

variable {layout : Layout} {external : Bytes} {entries : List KeyedEntry}

theorem values_keyedPage (layout : Layout) (hes : ∀ e ∈ entries, e.Sound external) :
    ∃ flags, (keyedPage external entries).items.mapIdx (Page.readBack layout) =
      ⟨0, flags, keptKey layout external⟩ ::
        entries.mapIdx fun k e => ⟨k + 1, e.item.flags, e.item.data⟩ := by
  have hentries : (entries.map KeyedEntry.item).mapIdx (fun k => Page.readBack layout (k + 1)) =
      entries.mapIdx fun k e => ⟨k + 1, e.item.flags, e.item.data⟩ :=
    Page.mapIdx_readBack (fun e _ => flags_item e) (fun _ e he => tidy_item (hes e he)) 1
  obtain ⟨flags, hexternal⟩ := readBack_external layout external
  refine ⟨flags, ?_⟩
  rw [keyedPage_eq, List.mapIdx_cons, hentries, hexternal]

/-- The leaf entries of the page are the entries that were written, in order. -/
theorem leafEntries_keyedPage (hes : ∀ e ∈ entries, e.Sound external) {read : Tree.Reader}
    {id : PageId} {p : Ese.Page} (hread : read id = .ok p)
    (hheader : p.header = Page.headerOf (keyedPage external entries))
    (hvalues : p.values = .ok ((keyedPage external entries).items.mapIdx (Page.readBack layout))) :
    Tree.IsLeaf read id ∧ Tree.nextPage read id = ⟨0⟩ ∧
      Tree.leafEntries read id = entries.mapIdx fun k e =>
        ⟨p, keptKey layout external, ⟨k + 1, e.item.flags, e.item.data⟩⟩ := by
  obtain ⟨flags, hitems⟩ := values_keyedPage layout hes
  rw [hitems] at hvalues
  have hcontents := Tree.contents_of_ok hread hvalues
  have hleaf : p.header.isLeaf = true := by
    rw [hheader, keyedPage_eq]
    exact show (Ese.Page.Flag.leaf &&& Ese.Page.Flag.leaf != 0) = true by decide
  refine ⟨⟨_, _, _, hcontents, hleaf⟩, ?_, ?_⟩
  · rw [Tree.nextPage_of_contents hcontents, hheader, keyedPage_eq]
    rfl
  · rw [Tree.leafEntries_of_leaf hcontents hleaf]
    exact List.ext_getElem (by simp) fun k h₁ h₂ => by simp

end

/-! Walks -/

open Ese.Tree

/-- What walks hand over of a page has the keys and the payloads that were written, if `external` is
the external key that is read there. -/
structure ReadsKeys (file : Ese.File) (id : UInt32) (external : Bytes)
    (entries : List KeyedEntry) : Prop where
  /-- A walk from the page hands all of it over. -/
  whole : ∃ ls, harvest file ⟨id⟩ = (ls, .ok ()) ∧ List.Forall₂ (Gives external) entries ls
  /-- So does any walk that comes to the page, and the tag says which entry it is. -/
  anywhere : ∀ root, ∀ l ∈ (harvest file root).1, l.page.id = ⟨id⟩ →
    ∃ k e, l.value.index = k + 1 ∧ entries[k]? = some e ∧ Gives external e l

theorem readsKeys_of_page {file : Ese.File} {id : UInt32} {layout : Layout} {external : Bytes}
    {entries : List KeyedEntry} (hvalid : PageId.isValid ⟨id⟩)
    (hes : ∀ e ∈ entries, e.Sound external) {p : Ese.Page} (hread : file.readPage ⟨id⟩ = .ok p)
    (hheader : p.header = Page.headerOf (keyedPage external entries))
    (hvalues : p.values = .ok ((keyedPage external entries).items.mapIdx (Page.readBack layout))) :
    ReadsKeys file id (keptKey layout external) entries := by
  obtain ⟨hleaf, hnext, hentries⟩ := leafEntries_keyedPage hes hread hheader hvalues
  have hgives : ∀ k (h : k < entries.length), Gives (keptKey layout external) entries[k]
      ⟨p, keptKey layout external, ⟨k + 1, entries[k].item.flags, entries[k].item.data⟩⟩ :=
    fun k h => gives_item p (k + 1) (length_keptKey layout external) (hes _ (List.getElem_mem h))
  constructor
  · have htree : UniformTree file.readPage [[⟨id⟩]] := by
      refine ⟨by simp, by simpa using hvalid, by simp [maxDepth], by simpa [Layered] using hleaf,
        by simp, ?_⟩
      intro level hlevel
      obtain rfl := Option.some.inj hlevel
      change ¬ PageId.isValid (nextPage file.readPage ⟨id⟩)
      rw [hnext]
      decide
    obtain ⟨steps, htrail, -, hdelivered⟩ := trail_uniformTree htree
    have hleaves : leaves steps = leafEntries file.readPage ⟨id⟩ := by
      rw [hdelivered]
      exact List.append_nil _
    refine ⟨leafEntries file.readPage ⟨id⟩, ?_, ?_⟩
    · rw [harvest_eq, htrail, hleaves]
    · rw [hentries, List.forall₂_iff_get]
      refine ⟨by simp, fun k h₁ h₂ => ?_⟩
      simp only [List.get_eq_getElem, List.getElem_mapIdx]
      exact hgives k h₁
  · intro root l hl hpage
    have hmem := mem_leafEntries_of_mem_harvest hl
    rw [hpage, hentries] at hmem
    obtain ⟨k, hk, rfl⟩ := List.getElem_of_mem hmem
    have hlt : k < entries.length := by simpa using hk
    refine ⟨k, entries[k], ?_, List.getElem?_eq_getElem hlt, ?_⟩
    · simp only [List.getElem_mapIdx]
    · simp only [List.getElem_mapIdx]
      exact hgives k hlt

theorem ReadsKeys.keys_unique {file : Ese.File} {id : UInt32} {a b : Bytes}
    {entries : List KeyedEntry} (ha : ReadsKeys file id a entries)
    (hb : ReadsKeys file id b entries) :
    entries.map (KeyedEntry.keyFrom a) = entries.map (KeyedEntry.keyFrom b) := by
  obtain ⟨ls, hls, hga⟩ := ha.whole
  obtain ⟨ls', hls', hgb⟩ := hb.whole
  obtain rfl : ls = ls' := (Prod.mk.inj (hls.symm.trans hls')).1
  clear ha hb hls hls'
  induction hga with
  | nil => rfl
  | @cons e l entries ls hl _ ih =>
    cases hgb with
    | cons hl' hrest =>
      obtain ⟨key, hsplit, hkey⟩ := hl
      obtain ⟨key', hsplit', hkey'⟩ := hl'
      obtain rfl : key = key' := (Prod.mk.inj (Except.ok.inj (hsplit.symm.trans hsplit'))).1
      rw [List.map_cons, List.map_cons, ih hrest, ← hkey, ← hkey']

section

variable {layout : Layout} {external : Bytes} {entries : List KeyedEntry}
  {pages : List (UInt32 × Page)} {id : UInt32}

theorem readsKeys_opened (hvalid : PageId.isValid ⟨id⟩) (hfits : ∀ x ∈ pages, x.2.Fits layout)
    (hplaced : File.placedAt? pages id = some (keyedPage external entries))
    (hes : ∀ e ∈ entries, e.Sound external) :
    ReadsKeys (File.ofPages layout pages).opened id (keptKey layout external) entries := by
  have hpage := hfits _ (File.placedAt?_mem hplaced)
  obtain ⟨p, hread, hheader, -, hvalues⟩ := File.readPage_of_block hpage.supported hfits hpage
    (File.placedAt?_le hplaced) (File.blockAt_placed hplaced)
  exact readsKeys_of_page hvalid hes hread hheader hvalues

/-- Keys are read with what is left of the external key, and so as they were written if nothing of
it stands where the flags would. -/
theorem readsKeys_build (layout : Layout) (external : Bytes) (entries : List KeyedEntry)
    (pages : List (UInt32 × Page)) (id : UInt32) (hvalid : PageId.isValid ⟨id⟩)
    (hfits : ∀ x ∈ pages, x.2.Fits layout)
    (hplaced : File.placedAt? pages id = some (keyedPage external entries))
    (hes : ∀ e ∈ entries, e.Sound external) :
    ∃ file, Ese.File.ofBytes (File.ofPages layout pages).build = .ok file ∧
      ReadsKeys file id (keptKey layout external) entries ∧
      ((layout.hasLargeTags = true → Page.Tidy ⟨0, external⟩) →
        ReadsKeys file id external entries) := by
  have hpage := hfits _ (File.placedAt?_mem hplaced)
  have hreads := readsKeys_opened hvalid hfits hplaced hes
  refine ⟨_, File.ofBytes_ofPages hpage.supported hfits, hreads, fun htidy => ?_⟩
  rwa [keptKey_eq htidy] at hreads

end

/-- An entry that shares two bytes with an external key whose second byte has high bits. -/
def sharedEntries : List KeyedEntry := [.common 2 [0x01] [0x76]]

def sharedPages : List (UInt32 × Page) := [(5, keyedPage [0xAA, 0xEB] sharedEntries)]

theorem readsKeys_shared :
    ∃ file, Ese.File.ofBytes (File.ofPages ⟨0x620, 0x11, 16384⟩ sharedPages).build = .ok file ∧
      ReadsKeys file 5 (keptKey ⟨0x620, 0x11, 16384⟩ [0xAA, 0xEB]) sharedEntries ∧
      ((Layout.hasLargeTags ⟨0x620, 0x11, 16384⟩ = true → Page.Tidy ⟨0, [0xAA, 0xEB]⟩) →
        ReadsKeys file 5 [0xAA, 0xEB] sharedEntries) :=
  readsKeys_build ⟨0x620, 0x11, 16384⟩ [0xAA, 0xEB] sharedEntries sharedPages 5 (by decide)
    (by decide) rfl (by decide)

/-- With large tags such keys do not come out as they were written. -/
theorem not_readsKeys_shared :
    (∀ x ∈ sharedPages, x.2.Fits ⟨0x620, 0x11, 16384⟩) ∧
      (∀ e ∈ sharedEntries, e.Sound [0xAA, 0xEB]) ∧
      ∃ file, Ese.File.ofBytes (File.ofPages ⟨0x620, 0x11, 16384⟩ sharedPages).build = .ok file ∧
        ¬ ReadsKeys file 5 [0xAA, 0xEB] sharedEntries := by
  have hfits : ∀ x ∈ sharedPages, x.2.Fits ⟨0x620, 0x11, 16384⟩ := by decide
  have hes : ∀ e ∈ sharedEntries, e.Sound [0xAA, 0xEB] := by decide
  refine ⟨hfits, hes, _, File.ofBytes_ofPages (by decide) hfits, fun hstored => ?_⟩
  have hkeys := hstored.keys_unique (readsKeys_opened (by decide) hfits rfl hes)
  exact absurd hkeys (by decide)

end Build

end Ese
