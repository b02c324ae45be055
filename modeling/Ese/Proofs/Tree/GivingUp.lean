import Mathlib
import Ese.Proofs.File.RoundTrip
import Ese.Proofs.Tree.Chain
import Ese.Proofs.Tree.Depth
/-!
Giving up. A walk ends with the complaint that a tree is too deep if it comes to a branch page on
the lowest level, and the complaint is about the first child of that page, whether the child is a
page to go into or one to pass over. Above the lowest level a child that is no page or was visited
is passed over.
-/

namespace Ese

namespace Tree

variable {σ α : Type}

/-! Walks that fail -/

section

variable {v : Visitor σ} {w w' : Walker σ} {steps : List Step} {e : Error}

theorem error_replay (h : replay v steps w = .error e w') :
    ∃ l j j', v.onLeaf l j = .error e j' := by
  induction steps generalizing w with
  | nil => cases h
  | cons s steps ih =>
    change (s :: steps).forM (Step.play v) w = _ at h
    rw [forM_cons_apply] at h
    rcases s.leaf_or_quiet with ⟨l, rfl⟩ | hs
    · have hplay : Step.play v (.leaf l) w = Walk.ofRun (v.onLeaf l) w := rfl
      rw [hplay, Walk.ofRun] at h
      cases hl : v.onLeaf l w.journal with
      | ok u j =>
        rw [hl] at h
        exact ih h
      | error e₁ j =>
        rw [hl] at h
        cases h
        exact ⟨l, w.journal, j, hl⟩
    · obtain ⟨w₁, hplay, -⟩ := play_quiet v hs w
      rw [hplay] at h
      exact ih h

theorem replay_of_total (htotal : ∀ l j, ∃ j', v.onLeaf l j = .ok () j') (steps : List Step)
    (w : Walker σ) : ∃ w', replay v steps w = .ok () w' := by
  cases hreplay : replay v steps w with
  | ok u w' => exact ⟨w', rfl⟩
  | error e w' =>
    obtain ⟨l, j, j', hl⟩ := error_replay hreplay
    obtain ⟨j₁, hok⟩ := htotal l j
    cases hok.symm.trans hl

theorem Follows.of_error {a : Walk σ α} {t : Trail α} (h : Follows v a t)
    (ha : a w = .error e w') : (∃ l j j', v.onLeaf l j = .error e j') ∨
      ∃ steps, t w.visited = (steps, .error e) ∧ replay v steps w = .ok () w' := by
  rw [h w, bind_apply] at ha
  rcases ht : t w.visited with ⟨steps, answer⟩
  rw [ht] at ha
  cases hr : replay v steps w with
  | error e₁ w₁ =>
    rw [hr] at ha
    cases ha
    exact Or.inl (error_replay hr)
  | ok u w₁ =>
    rw [hr] at ha
    cases answer with
    | ok x => cases ha
    | error e₁ =>
      cases ha
      exact Or.inr ⟨steps, rfl, hr⟩

theorem Follows.to_error {a : Walk σ α} {t : Trail α} (h : Follows v a t)
    (ht : t w.visited = (steps, .error e)) (hr : replay v steps w = .ok () w') :
    a w = .error e w' := by
  rw [h w, bind_apply, ht, hr]
  rfl

end

theorem Follows.walk_ofFile (file : File) (trace : Trace.Switches) (onLeaf : Leaf → Run σ Unit)
    (root : PageId) : Follows (Visitor.ofFile file trace onLeaf)
      ((Visitor.ofFile file trace onLeaf).walk root) (trail file.readPage root) :=
  Follows.walk (fun _ => rfl) root

/-! Children of branch entries -/

section

variable {v : Visitor σ} {page : Page} {external value : TaggedValue} {entry : BranchEntry}

theorem walkEntry_branch (descend : PageId → Walk σ Unit) (external : TaggedValue)
    (hbranch : ¬ page.header.isLeaf) (hentry : BranchEntry.parse value = .ok entry) :
    v.walkEntry descend page external value = descend entry.child := by
  rw [Visitor.walkEntry, if_neg hbranch, hentry]
  rfl

end

/-- When a walk gives up on a tree, and when it does not. The pages on a level are descended from
with as many levels left as there are below it. -/
structure GivesUp (file : File) (trace : Trace.Switches) (onLeaf : Leaf → Run σ Unit)
    (root : PageId) (w : Walker σ) : Prop where
  /-- Only at a branch page on the lowest level, which it has come to itself. -/
  only : ∀ start levels w',
    (Visitor.ofFile file trace onLeaf).walk root w = .error (tooDeep start levels) w' →
    levels = maxDepth ∧ ∃ id, Nested file.readPage root maxDepth id ∧ id ∉ w.visited ∧
      id ∈ w'.visited ∧ firstChild file.readPage id = some start
  /-- Whatever the first child of such a page is. -/
  always : (∀ l j, ∃ j', onLeaf l j = .ok () j') → ∀ id header start,
    .visit id maxDepth header ∈ (trail file.readPage root w.visited).1 →
    firstChild file.readPage id = some start →
    ∃ w', (Visitor.ofFile file trace onLeaf).walk root w = .error (tooDeep start maxDepth) w'
  /-- Above the lowest level, children that are no pages or were visited are passed over, and no
  more is done than that a page that was visited is logged. -/
  passed : ∀ depth < maxDepth, ∀ (page : Page) external value entry (w' : Walker σ),
    ¬ page.header.isLeaf → BranchEntry.parse value = .ok entry →
    (entry.child.isValid → entry.child ∈ w'.visited) →
    (Visitor.ofFile file trace onLeaf).walkEntry
        ((Visitor.ofFile file trace onLeaf).walkFrom (maxDepth - depth)) page external value w' =
      .ok () (w'.pass entry.child)
  refused : ∀ (page : Page) external value entry (w' : Walker σ),
    ¬ page.header.isLeaf → BranchEntry.parse value = .ok entry →
    (Visitor.ofFile file trace onLeaf).walkEntry
        ((Visitor.ofFile file trace onLeaf).walkFrom 0) page external value w' =
      .error (tooDeep entry.child maxDepth) w'

/-- A walk gives up on a tree at the first entry of a branch page on the lowest level, without a
look at the child, if its callback never answers like that itself. -/
theorem givesUp_walk (file : File) (trace : Trace.Switches) (onLeaf : Leaf → Run σ Unit)
    (hleaf : ∀ l j start levels j', onLeaf l j ≠ .error (tooDeep start levels) j')
    (root : PageId) (w : Walker σ) : GivesUp file trace onLeaf root w := by
  have hfollows := Follows.walk_ofFile file trace onLeaf root
  have hlimited := limited_trail (NeverFormat.readPage file) root w.visited
  refine ⟨?_, ?_, ?_, ?_⟩
  · intro start levels w' h
    rcases hfollows.of_error h with ⟨l, j, j', hl⟩ | ⟨steps, htrail, hreplay⟩
    · exact absurd hl (hleaf l j start levels j')
    have hbottom := hlimited start levels
    have hvisits := nested_trail file.readPage root w.visited
    have hentered := (pagewise_entered file.readPage).trail root w.visited
    have hfresh := (frugal_trail file.readPage root w.visited).fresh
    rw [htrail] at hbottom hvisits hentered hfresh
    obtain ⟨hlevels, id, header, hvisit, hfirst⟩ := hbottom.mp rfl
    have hid := hentered id maxDepth header hvisit
    refine ⟨hlevels, id, hvisits id maxDepth header hvisit, hfresh id hid, ?_, hfirst⟩
    rw [visited_replay hreplay]
    exact mem_marked.mpr (.inr hid)
  · intro htotal id header start hvisit hfirst
    obtain ⟨w', hreplay⟩ := replay_of_total (v := Visitor.ofFile file trace onLeaf) htotal
      (trail file.readPage root w.visited).1 w
    have hanswer := (hlimited start maxDepth).mpr ⟨rfl, id, header, hvisit, hfirst⟩
    exact ⟨w', hfollows.to_error (Prod.ext rfl hanswer) hreplay⟩
  · intro depth hdepth page external value entry w' hbranch hentry hskip
    obtain ⟨room, hroom⟩ : ∃ room, maxDepth - depth = room + 1 := ⟨maxDepth - depth - 1, by omega⟩
    rw [walkEntry_branch _ _ hbranch hentry, hroom]
    exact walkFrom_skip _ room hskip
  · intro page external value entry w' hbranch hentry
    rw [walkEntry_branch _ _ hbranch hentry]
    rfl

/-- A walk gives up on a tree only for a page that it would have gone into. -/
def Sparing (file : File) (trace : Trace.Switches) (onLeaf : Leaf → Run σ Unit) (root : PageId)
    (w : Walker σ) : Prop := ∀ start levels w',
  (Visitor.ofFile file trace onLeaf).walk root w = .error (tooDeep start levels) w' →
  ∃ id child, Nested file.readPage root maxDepth id ∧ child ∈ children file.readPage id ∧
    child.isValid ∧ child ∉ w'.visited

/-! Ladders -/

/-- Pages that are each the first child of the one before; the last has `last` for its own. -/
def Ladder (read : Reader) (last : PageId) : List PageId → Prop
  | [] => True
  | id :: below => id.isValid ∧ firstChild read id = some (below.head?.getD last) ∧
      Ladder read last below

section

variable {read : Reader} {id child last : PageId} {visited : Std.HashSet PageId}

theorem of_firstChild (h : firstChild read id = some child) :
    ∃ page external value rest entry, contents read id = .ok (page, external :: value :: rest) ∧
      ¬ page.header.isLeaf ∧ BranchEntry.parse value = .ok entry ∧ entry.child = child := by
  unfold firstChild at h
  split at h
  case h_2 => cases h
  case h_1 page external value rest hc =>
    split at h
    case isTrue => cases h
    case isFalse hbranch =>
      cases hparse : BranchEntry.parse value with
      | error e =>
        rw [childOf, hparse] at h
        cases h
      | ok entry =>
        rw [childOf, hparse] at h
        exact ⟨page, external, value, rest, entry, hc, hbranch, hparse, Option.some.inj h⟩

/-- A page is as lost as its first child. -/
theorem page_of_firstChild {descend : PageId → Trail Unit} (depth : Nat) {down : List Step}
    {e : Error} (hfirst : firstChild read id = some child)
    (hdown : descend child visited = (down, .error e)) :
    ∃ header, Trail.page read descend depth id visited =
      (.visit id depth header :: down, .error e) := by
  obtain ⟨page, external, value, rest, entry, hc, hbranch, hparse, rfl⟩ := of_firstChild hfirst
  obtain ⟨hread, hvalues⟩ := of_contents_ok hc
  have hentry : Trail.entry descend page external value visited = (down, .error e) := by
    rw [Trail.entry, if_neg hbranch, hparse, Trail.bind_of_ok rfl, marked_nil, hdown]
    rfl
  have hall : Trail.values descend page (external :: value :: rest) visited = (down, .error e) :=
    Trail.bind_of_error (Trail.bind_of_error hentry)
  exact ⟨page.header, by rw [Trail.page_of_ok hread hvalues, hall]⟩

/-- A walk down a ladder that has no more levels left than the ladder has pages. -/
theorem trail_ladder {below : List PageId} (h : Ladder read last (id :: below))
    (hnodup : (id :: below).Nodup) (hnew : ∀ p ∈ id :: below, p ∉ visited) :
    ∃ steps, Trail.tree read (below.length + 1) id visited =
        (steps, .error (tooDeep last maxDepth)) ∧ entered steps = id :: below := by
  induction below generalizing id visited with
  | nil =>
    obtain ⟨hv, hfirst, -⟩ := h
    have hdown : Trail.tree read 0 last (visited.insert id) =
        ([], .error (tooDeep last maxDepth)) := rfl
    obtain ⟨header, hpage⟩ := page_of_firstChild (maxDepth - 0) hfirst hdown
    exact ⟨_, Trail.chain_of_error hv (hnew id List.mem_cons_self) hpage, rfl⟩
  | cons next below ih =>
    obtain ⟨hv, hfirst, hbelow⟩ := h
    obtain ⟨hnext, hrest⟩ := List.nodup_cons.mp hnodup
    have hfresh : ∀ p ∈ next :: below, p ∉ visited.insert id := by
      intro p hp hmem
      rcases Std.HashSet.mem_insert.mp hmem with heq | hold
      · rw [beq_iff_eq.mp heq] at hnext
        exact hnext hp
      · exact hnew p (List.mem_cons_of_mem id hp) hold
    obtain ⟨down, hdown, hentered⟩ := ih hbelow hrest hfresh
    obtain ⟨header, hpage⟩ := page_of_firstChild (maxDepth - (below.length + 1)) hfirst hdown
    refine ⟨_, Trail.chain_of_error hv (hnew id List.mem_cons_self) hpage, ?_⟩
    rw [entered_enter, entered_visit, hentered]

/-- A ladder with a page on every level has one level too many below it, whatever stands there. -/
theorem trail_of_ladder {below : List PageId} (hlength : below.length = maxDepth)
    (h : Ladder read last (id :: below)) (hnodup : (id :: below).Nodup)
    (hnew : ∀ p ∈ id :: below, p ∉ visited) :
    ∃ steps, trail read id visited = (steps, .error (tooDeep last maxDepth)) ∧
      entered steps = id :: below := by
  have htree := trail_ladder h hnodup hnew
  rwa [hlength] at htree

/-- A walk down such a ladder visits all of it and gives up, even if `last` is no page at all. -/
theorem walk_ladder (file : File) (trace : Trace.Switches) {onLeaf : Leaf → Run σ Unit}
    (htotal : ∀ l j, ∃ j', onLeaf l j = .ok () j') (w : Walker σ) {below : List PageId}
    (hlength : below.length = maxDepth) (h : Ladder file.readPage last (id :: below))
    (hnodup : (id :: below).Nodup) (hnew : ∀ p ∈ id :: below, p ∉ w.visited) :
    ∃ w', (Visitor.ofFile file trace onLeaf).walk id w = .error (tooDeep last maxDepth) w' ∧
      ∀ p, p ∈ w'.visited ↔ p ∈ w.visited ∨ p ∈ id :: below := by
  obtain ⟨steps, htrail, hentered⟩ := trail_of_ladder hlength h hnodup hnew
  obtain ⟨w', hreplay⟩ :=
    replay_of_total (v := Visitor.ofFile file trace onLeaf) htotal steps w
  refine ⟨w', (Follows.walk_ofFile file trace onLeaf id).to_error htrail hreplay, fun p => ?_⟩
  rw [visited_replay hreplay, mem_marked, hentered]

end

end Tree

namespace Build

open Ese.Tree

/-! A circle -/

theorem childOf_entry (index : Nat) {key : Bytes} (child : UInt32) (hkey : key.length < 0x10000) :
    childOf ⟨index, 0, entryBytes key (LittleEndian.encode 4 child.toNat)⟩ = some ⟨child⟩ := by
  have hlength : (UInt16.ofNat key.length).toNat = key.length := Field.toNat_ofNat hkey
  have hwhole := Segment.whole (entryBytes key (LittleEndian.encode 4 child.toNat))
  have hend : KeyHeader.endOffset ⟨none, .ofNat key.length, 2⟩ =
      0 + (LittleEndian.encode 2 key.length ++ key).length := by
    rw [KeyHeader.endOffset, hlength, List.length_append, LittleEndian.length_encode, Nat.zero_add]
  have hkey := hwhole.left.after 2 rfl
  have hchild := hwhole.after _ hend
  rw [childOf, BranchEntry.parse, read_plain]
  simp only [bind, Except.bind, hkey.slice_eq .branchKey hlength, hchild.readU32_eq .branchChild,
    UInt32.ofNat_toNat]
  rfl

def circleLayout : Layout := ⟨0x620, 0x11, 4096⟩

/-- The pages 5 to 69, over and over. -/
def circleId (k : Nat) : UInt32 := .ofNat (5 + k % 65)

def circlePage (k : Nat) : Page := Page.branch.addChild [1] (circleId (k + 1))

def circlePages : List (UInt32 × Page) := (List.range 65).map fun k => (circleId k, circlePage k)

/-- As many pages as a tree may have levels, the last of which leads back to the first. -/
def circleFile : Ese.File := (File.ofPages circleLayout circlePages).opened

theorem fits_circle : ∀ x ∈ circlePages, x.2.Fits circleLayout := by
  intro x hx
  obtain ⟨k, -, rfl⟩ := List.mem_map.mp hx
  refine ⟨by decide, ?_, ?_, fun _ hlarge => absurd hlarge (by decide)⟩
  · simp [circlePage, Page.branch, Page.addChild, Page.add]
    decide
  · simp [circlePage, Page.branch, Page.addChild, Page.add]

theorem toNat_circleId (k : Nat) : (circleId k).toNat = 5 + k % 65 :=
  UInt32.toNat_ofNat_of_lt' (show 5 + k % 65 < 2 ^ 32 by omega)

theorem circleId_inj {i j : Nat} (hi : i < 65) (hj : j < 65) (h : circleId i = circleId j) :
    i = j := by
  have hsame := congrArg UInt32.toNat h
  rw [toNat_circleId, toNat_circleId, Nat.mod_eq_of_lt hi, Nat.mod_eq_of_lt hj] at hsame
  exact Nat.add_left_cancel hsame

theorem nodup_circle : ((List.range 65).map circleId).Nodup :=
  List.Nodup.map_on
    (fun _ hi _ hj => circleId_inj (List.mem_range.mp hi) (List.mem_range.mp hj)) List.nodup_range

theorem reads_circle : Reads circleFile.readPage circleLayout circlePages := by
  have hnodup : (circlePages.map (·.1)).Nodup := by
    rw [circlePages, List.map_map]
    exact nodup_circle
  exact reads_ofPages (by decide) fits_circle hnodup

theorem contents_circle {k : Nat} (hk : k < 65) : contents circleFile.readPage ⟨circleId k⟩ =
    .ok (stored circleLayout (circleId k, circlePage k),
      [⟨0, 0, []⟩, ⟨1, 0, entryBytes [1] (LittleEndian.encode 4 (circleId (k + 1)).toNat)⟩]) := by
  have hmem : (circleId k, circlePage k) ∈ circlePages :=
    List.mem_map_of_mem (List.mem_range.mpr hk)
  obtain ⟨hfits, hread⟩ := reads_circle _ hmem
  have hlarge : circleLayout.hasLargeTags = false := by decide
  have hitems : (circlePage k).items.mapIdx (Page.readBack circleLayout) =
      [⟨0, 0, []⟩, ⟨1, 0, entryBytes [1] (LittleEndian.encode 4 (circleId (k + 1)).toNat)⟩] := by
    simp [circlePage, Page.branch, Page.addChild, Page.add, Page.readBack, hlarge, entryBytes]
  rw [contents_stored hfits hread, hitems]

theorem circleId_add (k : Nat) : circleId (k + 65) = circleId k := by
  rw [circleId, circleId, Nat.add_mod_right]

theorem isValid_circleId (k : Nat) : PageId.isValid ⟨circleId k⟩ := by
  have hvalue := toNat_circleId k
  have hzero : circleId k ≠ 0 := by
    intro h
    rw [h] at hvalue
    change 0 = 5 + k % 65 at hvalue
    omega
  have hlast : circleId k ≠ 0xFFFFFFFF := by
    intro h
    rw [h] at hvalue
    change 0xFFFFFFFF = 5 + k % 65 at hvalue
    omega
  simp [PageId.isValid, hzero, hlast]

theorem children_circle {k : Nat} (hk : k < 65) :
    children circleFile.readPage ⟨circleId k⟩ = [⟨circleId (k + 1)⟩] ∧
      firstChild circleFile.readPage ⟨circleId k⟩ = some ⟨circleId (k + 1)⟩ := by
  have hbranch : (stored circleLayout (circleId k, circlePage k)).header.isLeaf = false := by
    change (Ese.Page.Flag.parent &&& Ese.Page.Flag.leaf != 0) = false
    decide
  have hkey : ([1] : Bytes).length < 0x10000 := by decide
  have hchild := childOf_entry 1 (circleId (k + 1)) hkey
  constructor
  · rw [children_of_branch (contents_circle hk) hbranch, List.filterMap_cons, hchild]
    rfl
  · rw [firstChild_of_branch (contents_circle hk) hbranch, hchild]

def circleIds : List PageId := (List.range 65).map fun k => ⟨circleId k⟩

theorem ladder_circle {n k : Nat} (h : k + n = 65) :
    Ladder circleFile.readPage ⟨circleId 65⟩ ((List.range' k n).map fun k => ⟨circleId k⟩) := by
  induction n generalizing k with
  | zero => exact trivial
  | succ n ih =>
    rw [List.range'_succ, List.map_cons]
    refine ⟨isValid_circleId k, ?_, ih (by omega)⟩
    rw [(children_circle (by omega)).2]
    cases n with
    | zero =>
      obtain rfl : k = 64 := by omega
      rfl
    | succ n => rfl

theorem mem_circleIds_of_nested {depth : Nat} {id : PageId}
    (h : Nested circleFile.readPage ⟨circleId 0⟩ depth id) : id ∈ circleIds := by
  have hstep : ∀ k, (⟨circleId k⟩ : PageId) ∈ circleIds := by
    intro k
    refine List.mem_map.mpr ⟨k % 65, List.mem_range.mpr (Nat.mod_lt k (by decide)), ?_⟩
    rw [circleId, circleId, Nat.mod_mod]
  induction h with
  | root => exact hstep 0
  | next _ hc hv ih =>
    obtain ⟨k, hk, rfl⟩ := List.mem_map.mp ih
    rw [contents_circle (List.mem_range.mp hk)] at hc
    cases hc
    have hzero : PageId.isValid ⟨0⟩ := hv
    exact absurd hzero (by decide)
  | child _ hchild _ ih =>
    obtain ⟨k, hk, rfl⟩ := List.mem_map.mp ih
    rw [(children_circle (List.mem_range.mp hk)).1, List.mem_singleton] at hchild
    rw [hchild]
    exact hstep (k + 1)

def freshWalker : Walker Unit := ⟨{}, ⟨#[], ()⟩⟩

def takeLeaf (_ : Leaf) : Run Unit Unit := pure ()

theorem walk_circle : ∃ w', (Visitor.ofFile circleFile {} takeLeaf).walk ⟨circleId 0⟩ freshWalker =
    .error (tooDeep ⟨circleId 0⟩ maxDepth) w' ∧ ∀ id ∈ circleIds, id ∈ w'.visited := by
  have hladder := ladder_circle (show 0 + 65 = 65 from rfl)
  rw [circleId_add 0] at hladder
  have hids : circleIds = ⟨circleId 0⟩ :: (List.range' 1 64).map fun k => ⟨circleId k⟩ := by
    rw [circleIds, List.range_eq_range', List.range'_succ, List.map_cons]
  have hnodup : circleIds.Nodup := by
    have hmap := nodup_circle.map (f := PageId.mk) fun _ _ h => congrArg PageId.value h
    rwa [List.map_map] at hmap
  rw [hids] at hnodup
  have hlength : ((List.range' 1 64).map fun k => (⟨circleId k⟩ : PageId)).length = maxDepth := by
    rw [List.length_map, List.length_range']
    rfl
  have htotal : ∀ l j, ∃ j', takeLeaf l j = .ok () j' := fun _ j => ⟨j, rfl⟩
  obtain ⟨w', hwalk, hvisited⟩ := walk_ladder circleFile {} htotal freshWalker hlength hladder
    hnodup fun _ _ => Std.HashSet.not_mem_empty
  refine ⟨w', hwalk, fun id hid => ?_⟩
  rw [hids] at hid
  exact (hvisited id).mpr (.inr hid)

/-- The walk gives up at the last page of the circle. -/
theorem givesUp_circle : ∃ w', (Visitor.ofFile circleFile {} takeLeaf).walk ⟨circleId 0⟩
      freshWalker = .error (tooDeep ⟨circleId 0⟩ maxDepth) w' ∧
    ∃ id, Nested circleFile.readPage ⟨circleId 0⟩ maxDepth id ∧ id ∈ w'.visited ∧
      firstChild circleFile.readPage id = some ⟨circleId 0⟩ := by
  obtain ⟨w', hwalk, -⟩ := walk_circle
  have hgives :=
    givesUp_walk circleFile {} takeLeaf (fun _ _ _ _ _ => nofun) ⟨circleId 0⟩ freshWalker
  obtain ⟨-, id, hnested, -, hvisited, hfirst⟩ := hgives.only _ _ w' hwalk
  exact ⟨w', hwalk, id, hnested, hvisited, hfirst⟩

/-- The circle has nothing that was not visited, and yet the walk gives up. -/
theorem not_sparing_circle : File.ofBytes (File.ofPages circleLayout circlePages).build =
      .ok circleFile ∧ ¬ Sparing circleFile {} takeLeaf ⟨circleId 0⟩ freshWalker := by
  refine ⟨File.ofBytes_ofPages (by decide) fits_circle, fun hsparing => ?_⟩
  obtain ⟨w', hwalk, hall⟩ := walk_circle
  obtain ⟨id, child, hnested, hchild, hv, hnew⟩ := hsparing _ _ w' hwalk
  exact hnew (hall child (mem_circleIds_of_nested (hnested.child hchild hv)))

end Build

end Ese
