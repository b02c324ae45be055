import Mathlib
import Ese.Proofs.File.RoundTrip
import Ese.Proofs.Tree.Replay
/-!
Walks are exhaustive. A walk that succeeds enters each page it can get at once: what it enters was
not visited before, is reachable from where it started, and is closed under the links of its pages.
The last holds of a page only when the walk is through with it, so it is stated of whole stretches
of a trail, with the pages that were visited before as an excuse; stretches join.
-/

namespace Ese.Tree

def contents (read : Reader) (id : PageId) : Except DecodeError (Page × List TaggedValue) := do
  let page ← read id
  let values ← page.values
  return (page, values)

theorem contents_of_error {read : Reader} {id : PageId} {e : DecodeError}
    (hread : read id = .error e) : contents read id = .error e := by
  rw [contents, hread]
  rfl

theorem contents_of_read {read : Reader} {id : PageId} {page : Page} (hread : read id = .ok page) :
    contents read id = page.values.map fun values => (page, values) := by
  rw [contents, hread]
  change (do let values ← page.values; return (page, values)) = _
  cases page.values <;> rfl

theorem contents_of_ok {read : Reader} {id : PageId} {page : Page} {values : List TaggedValue}
    (hread : read id = .ok page) (hvalues : page.values = .ok values) :
    contents read id = .ok (page, values) := by
  rw [contents_of_read hread, hvalues]
  rfl

theorem of_contents_ok {read : Reader} {id : PageId} {page : Page} {values : List TaggedValue}
    (h : contents read id = .ok (page, values)) :
    read id = .ok page ∧ page.values = .ok values := by
  obtain ⟨p, hp, hrest⟩ := Outcome.of_bind_ok h
  obtain ⟨vs, hvs, hpair⟩ := Outcome.of_bind_ok hrest
  cases hpair
  exact ⟨hp, hvs⟩

def childOf (value : TaggedValue) : Option PageId :=
  (BranchEntry.parse value).toOption.map (·.child)

/-- Where the links of a page lead: a page without tags has none, a leaf page its next page, and a
branch page the children of its entries and then its next page. -/
def successors (read : Reader) (id : PageId) : List PageId :=
  match contents read id with
  | .ok (page, _ :: entries) =>
    if page.header.isLeaf then [page.header.next]
    else entries.filterMap childOf ++ [page.header.next]
  | _ => []

def leafEntries (read : Reader) (id : PageId) : List Leaf :=
  match contents read id with
  | .ok (page, external :: entries) =>
    if page.header.isLeaf then entries.map fun value => { page, external := external.data, value }
    else []
  | _ => []

theorem leafEntries_of_leaf {read : Reader} {id : PageId} {page : Page} {external : TaggedValue}
    {entries : List TaggedValue} (hc : contents read id = .ok (page, external :: entries))
    (hleaf : page.header.isLeaf = true) :
    leafEntries read id = entries.map fun value => { page, external := external.data, value } := by
  simp only [leafEntries, hc, hleaf, if_true]

inductive Reachable (read : Reader) (roots : List PageId) : PageId → Prop where
  | root {id : PageId} : id ∈ roots → id.isValid → Reachable read roots id
  | step {id next : PageId} :
    Reachable read roots id → next ∈ successors read id → next.isValid → Reachable read roots next

namespace Reachable

variable {read : Reader} {roots : List PageId} {id : PageId}

theorem isValid (h : Reachable read roots id) : id.isValid := by
  cases h with
  | root _ hv => exact hv
  | step _ _ hv => exact hv

theorem mono {more : List PageId} (h : Reachable read roots id) (hsub : roots ⊆ more) :
    Reachable read more id := by
  induction h with
  | root hid hv => exact root (hsub hid) hv
  | step _ hn hv ih => exact step ih hn hv

/-- What the links of a reachable page lead to. -/
theorem trans {start : PageId} (hs : Reachable read roots start)
    (h : Reachable read (successors read start) id) : Reachable read roots id := by
  induction h with
  | root hid hv => exact step hs hid hv
  | step _ hn hv ih => exact step ih hn hv

/-- A closed set with the roots has all pages that can be reached. -/
theorem mem_of_closed {s : List PageId} (hroots : ∀ r ∈ roots, r.isValid → r ∈ s)
    (hclosed : ∀ p ∈ s, ∀ n ∈ successors read p, n.isValid → n ∈ s)
    (h : Reachable read roots id) : id ∈ s := by
  induction h with
  | root hid hv => exact hroots _ hid hv
  | step _ hn hv ih => exact hclosed _ ih _ hn hv

end Reachable

/-- A stretch of a trail that repeats nothing, however it ends. -/
structure Unrepeated (read : Reader) (visited : Std.HashSet PageId) (steps : List Step) : Prop where
  nodup : (entered steps).Nodup
  fresh : ∀ id ∈ entered steps, id ∉ visited
  delivered : leaves steps = (entered steps).flatMap (leafEntries read)

namespace Unrepeated

variable {read : Reader} {visited : Std.HashSet PageId}

theorem idle {steps : List Step} (hent : entered steps = []) (hleaves : leaves steps = []) :
    Unrepeated read visited steps where
  nodup := hent ▸ .nil
  fresh := by simp [hent]
  delivered := by rw [hent, hleaves]; rfl

theorem append {a b : List Step} (ha : Unrepeated read visited a)
    (hb : Unrepeated read (marked visited a) b) : Unrepeated read visited (a ++ b) where
  nodup := by
    rw [entered_append]
    refine ha.nodup.append hb.nodup fun id hia hib => ?_
    exact hb.fresh id hib (mem_marked.mpr (.inr hia))
  fresh id h := by
    rw [entered_append] at h
    rcases List.mem_append.mp h with h | h
    · exact ha.fresh id h
    · exact fun hv => hb.fresh id h (mem_marked.mpr (.inl hv))
  delivered := by
    rw [leaves_append, entered_append, List.flatMap_append, ha.delivered, hb.delivered]

/-- A page that is entered delivers its own entries, and then what its links lead to. -/
theorem enter {id : PageId} {steps links : List Step} (hnew : id ∉ visited)
    (hent : entered steps = entered links)
    (hleaves : leaves steps = leafEntries read id ++ leaves links)
    (h : Unrepeated read (visited.insert id) links) :
    Unrepeated read visited (.enter id :: steps) where
  nodup := by
    rw [entered_enter, hent, List.nodup_cons]
    exact ⟨fun hid => h.fresh id hid (by simp), h.nodup⟩
  fresh p hp hpv := by
    rw [entered_enter, hent] at hp
    rcases List.mem_cons.mp hp with rfl | hp
    · exact hnew hpv
    · exact h.fresh p hp (by simp [hpv])
  delivered := by
    rw [entered_enter, leaves_enter, hent, hleaves, h.delivered, List.flatMap_cons]

end Unrepeated

/-- A stretch of a trail that explores all there is behind some pages. -/
structure Explored (read : Reader) (visited : Std.HashSet PageId) (targets : List PageId)
    (steps : List Step) : Prop where
  nodup : (entered steps).Nodup
  fresh : ∀ id ∈ entered steps, id ∉ visited
  reached : ∀ id ∈ entered steps, Reachable read targets id
  readable : ∀ id ∈ entered steps, ∃ c, contents read id = .ok c
  targets_mem : ∀ id ∈ targets, id.isValid → id ∈ visited ∨ id ∈ entered steps
  closed : ∀ id ∈ entered steps, ∀ next ∈ successors read id, next.isValid →
    next ∈ visited ∨ next ∈ entered steps
  delivered : leaves steps = (entered steps).flatMap (leafEntries read)

namespace Explored

variable {read : Reader} {visited : Std.HashSet PageId}

theorem nil : Explored read visited [] [] where
  nodup := .nil
  fresh := by simp
  reached := by simp
  readable := by simp
  targets_mem := by simp
  closed := by simp
  delivered := rfl

/-- Nothing is behind what is no page or was visited before. -/
theorem skip {id : PageId} (h : id.isValid → id ∈ visited) :
    Explored read visited [id] (Trail.passed id) where
  nodup := by simp
  fresh := by simp
  reached := by simp
  readable := by simp
  targets_mem := by simpa using h
  closed := by simp
  delivered := by simp

theorem unrepeated {targets : List PageId} {steps : List Step}
    (h : Explored read visited targets steps) : Unrepeated read visited steps :=
  ⟨h.nodup, h.fresh, h.delivered⟩

theorem append {as bs : List PageId} {a b : List Step} (ha : Explored read visited as a)
    (hb : Explored read (marked visited a) bs b) : Explored read visited (as ++ bs) (a ++ b) where
  nodup := (ha.unrepeated.append hb.unrepeated).nodup
  fresh := (ha.unrepeated.append hb.unrepeated).fresh
  reached id h := by
    rw [entered_append, List.mem_append] at h
    rcases h with h | h
    · exact (ha.reached id h).mono (List.subset_append_left as bs)
    · exact (hb.reached id h).mono (List.subset_append_right as bs)
  readable id h := by
    rw [entered_append, List.mem_append] at h
    exact h.elim (ha.readable id) (hb.readable id)
  targets_mem id h hv := by
    rw [entered_append, List.mem_append, ← or_assoc, ← mem_marked]
    rcases List.mem_append.mp h with h | h
    · exact .inl (mem_marked.mpr (ha.targets_mem id h hv))
    · exact hb.targets_mem id h hv
  closed id h next hn hv := by
    rw [entered_append, List.mem_append] at h
    rw [entered_append, List.mem_append, ← or_assoc, ← mem_marked]
    rcases h with h | h
    · exact .inl (mem_marked.mpr (ha.closed id h next hn hv))
    · exact hb.closed id h next hn hv
  delivered := (ha.unrepeated.append hb.unrepeated).delivered

/-- A page is explored when all its links are. -/
theorem page {id : PageId} {steps : List Step} (depth : Nat) (header : Page.Header)
    (hv : id.isValid) (hnew : id ∉ visited)
    (hread : ∃ c, contents read id = .ok c)
    (h : Explored read (visited.insert id) (successors read id) steps) :
    Explored read visited [id]
      (.enter id :: .visit id depth header :: ((leafEntries read id).map .leaf ++ steps)) := by
  have hent : entered (.enter id :: .visit id depth header ::
      ((leafEntries read id).map .leaf ++ steps)) = id :: entered steps := by simp
  have hmem : ∀ p, p ∈ visited.insert id ∨ p ∈ entered steps →
      p ∈ visited ∨ p ∈ id :: entered steps := by
    intro p hp
    simp only [Std.HashSet.mem_insert, beq_iff_eq, List.mem_cons] at hp ⊢
    tauto
  have honce : Unrepeated read visited
      (.enter id :: .visit id depth header :: ((leafEntries read id).map .leaf ++ steps)) :=
    .enter hnew (by simp) (by simp) h.unrepeated
  refine ⟨honce.nodup, honce.fresh, ?_, ?_, ?_, ?_, honce.delivered⟩
  · rw [hent]
    intro p hp
    have hroot : Reachable read [id] id := .root List.mem_cons_self hv
    rcases List.mem_cons.mp hp with rfl | hp
    · exact hroot
    · exact hroot.trans (h.reached p hp)
  · rw [hent]
    intro p hp
    rcases List.mem_cons.mp hp with rfl | hp
    · exact hread
    · exact h.readable p hp
  · rw [hent]
    intro p hp _
    exact .inr (List.mem_singleton.mp hp ▸ List.mem_cons_self)
  · rw [hent]
    intro p hp next hn hnv
    rcases List.mem_cons.mp hp with rfl | hp
    · exact hmem next (h.targets_mem next hn hnv)
    · exact hmem next (h.closed p hp next hn hnv)

/-- From a fresh start, the pages entered are those that can be reached. -/
theorem mem_entered_iff {roots : List PageId} {steps : List Step}
    (h : Explored read {} roots steps) {id : PageId} :
    id ∈ entered steps ↔ Reachable read roots id := by
  refine ⟨h.reached id, fun hid => ?_⟩
  refine hid.mem_of_closed (fun r hr hv => ?_) (fun p hp n hn hv => ?_)
  · exact (h.targets_mem r hr hv).resolve_left Std.HashSet.not_mem_empty
  · exact (h.closed p hp n hn hv).resolve_left Std.HashSet.not_mem_empty

end Explored

/-! Trails that succeed explore -/

section

variable {read : Reader} {descend : PageId → Trail Unit}

def Explores (read : Reader) (descend : PageId → Trail Unit) : Prop :=
  ∀ id visited steps, descend id visited = (steps, .ok ()) → Explored read visited [id] steps

theorem entries_leaf {page : Page} (external : TaggedValue) (entries : List TaggedValue)
    (hleaf : page.header.isLeaf) (visited : Std.HashSet PageId) :
    (entries.forM (Trail.entry descend page external)) visited =
      ((entries.map fun value => { page, external := external.data, value }).map .leaf,
        .ok ()) := by
  induction entries generalizing visited with
  | nil => rfl
  | cons value entries ih =>
    have hstep : Trail.entry descend page external value visited =
        ([.leaf { page, external := external.data, value }], .ok ()) := by
      rw [Trail.entry, if_pos hleaf]
      rfl
    change (Trail.entry descend page external value >>= fun _ =>
      entries.forM (Trail.entry descend page external)) visited = _
    rw [Trail.bind_of_ok hstep, ih]
    rfl

theorem explored_entries (hd : Explores read descend) {page : Page} (external : TaggedValue)
    (hbranch : ¬ page.header.isLeaf) :
    ∀ (entries : List TaggedValue) (visited : Std.HashSet PageId) (steps : List Step),
      (entries.forM (Trail.entry descend page external)) visited = (steps, .ok ()) →
      Explored read visited (entries.filterMap childOf) steps := by
  intro entries
  induction entries with
  | nil =>
    intro visited steps h
    cases h
    exact .nil
  | cons value entries ih =>
    intro visited steps h
    change (Trail.entry descend page external value >>= fun _ => _) visited = _ at h
    obtain ⟨first, _, rest, hfirst, hrest, rfl⟩ := Trail.of_bind_ok h
    rw [Trail.entry, if_neg hbranch] at hfirst
    obtain ⟨_, entry, down, hentry, hdown, rfl⟩ := Trail.of_bind_ok hfirst
    obtain ⟨hparse, rfl⟩ := Trail.of_ofExcept_ok hentry
    have hchild : childOf value = some entry.child := by
      rw [childOf, hparse]
      rfl
    rw [List.filterMap_cons, hchild]
    exact (hd _ _ _ hdown).append (ih _ _ hrest)

theorem explored_values (hd : Explores read descend) {id : PageId} {page : Page}
    {values : List TaggedValue} (hc : contents read id = .ok (page, values))
    {visited : Std.HashSet PageId} {steps : List Step} {next : Option PageId}
    (h : Trail.values descend page values visited = (steps, .ok next)) :
    ∃ targets down, successors read id = targets ++ next.toList ∧
      steps = (leafEntries read id).map .leaf ++ down ∧ Explored read visited targets down := by
  cases values with
  | nil =>
    cases h
    exact ⟨[], [], by simp [successors, hc], by simp [leafEntries, hc], .nil⟩
  | cons external entries =>
    obtain ⟨first, _, rest, hfirst, hrest, rfl⟩ := Trail.of_bind_ok h
    cases hrest
    by_cases hleaf : page.header.isLeaf
    · rw [entries_leaf external entries hleaf] at hfirst
      cases hfirst
      exact ⟨[], [], by simp [successors, hc, hleaf], by simp [leafEntries, hc, hleaf], .nil⟩
    · refine ⟨entries.filterMap childOf, first, by simp [successors, hc, hleaf],
        by simp [leafEntries, hc, hleaf], ?_⟩
      exact explored_entries hd external hleaf entries visited first hfirst

theorem of_page_ok {depth : Nat} {id : PageId} {visited : Std.HashSet PageId} {steps : List Step}
    {next : Option PageId}
    (h : Trail.page read descend depth id visited = (steps, .ok next)) :
    ∃ page values rest, contents read id = .ok (page, values) ∧
      Trail.values descend page values visited = (rest, .ok next) ∧
      steps = .visit id depth page.header :: rest := by
  unfold Trail.page at h
  obtain ⟨_, page, _, hread, hlog, rfl⟩ := Trail.of_bind_ok h
  obtain ⟨hpage, rfl⟩ := Trail.of_ofExcept_ok hread
  obtain ⟨_, u, _, hsay, htags, rfl⟩ := Trail.of_bind_ok hlog
  cases hsay
  obtain ⟨_, values, rest, hread, hrest, rfl⟩ := Trail.of_bind_ok htags
  obtain ⟨hvalues, rfl⟩ := Trail.of_ofExcept_ok hread
  exact ⟨page, values, rest, contents_of_ok hpage hvalues, by simpa [marked] using hrest, rfl⟩

theorem explored_chain (hd : Explores read descend) (depth : Nat) :
    ∀ (room : Nat) (id : PageId) (visited : Std.HashSet PageId) (steps : List Step),
      Trail.chain read descend depth room id visited = (steps, .ok ()) →
      Explored read visited [id] steps := by
  intro room
  induction room with
  | zero => intro id visited steps h; cases h
  | succ room ih =>
    intro id visited steps h
    by_cases hold : id.isValid → id ∈ visited
    case pos =>
      rw [Trail.chain_skip hold] at h
      cases h
      exact .skip hold
    case neg =>
      obtain ⟨hv, hnew⟩ := Classical.not_imp.mp hold
      rw [Trail.chain, if_pos hv] at h
      obtain ⟨first, fresh, rest, hfirst, hrest, rfl⟩ := Trail.of_bind_ok h
      rw [Trail.enter, if_neg (by simpa using hnew)] at hfirst
      cases hfirst
      obtain ⟨onPage, next, behind, hpage, hbehind, rfl⟩ := Trail.of_bind_ok hrest
      obtain ⟨page, values, onValues, hc, hvalues, rfl⟩ := of_page_ok hpage
      obtain ⟨targets, down, hsucc, rfl, hdown⟩ := explored_values hd hc hvalues
      have hread : ∃ c, contents read id = .ok c := ⟨_, hc⟩
      have hafter : marked (visited.insert id)
          (.visit id depth page.header :: ((leafEntries read id).map .leaf ++ down)) =
          marked (visited.insert id) down := by simp [marked]
      rw [marked_enter, marked_nil] at hdown hbehind
      rw [hafter] at hbehind
      have hlinks : Explored read (visited.insert id) (successors read id) (down ++ behind) := by
        rw [hsucc]
        refine hdown.append ?_
        cases next with
        | none =>
          cases hbehind
          exact .nil
        | some next => exact ih next _ _ hbehind
      have hall := Explored.page depth page.header hv hnew hread hlinks
      simpa using hall

theorem explores_tree (read : Reader) (room : Nat) : Explores read (Trail.tree read room) := by
  induction room with
  | zero => intro id visited steps h; cases h
  | succ room ih => exact explored_chain ih _ _

theorem explores_trail (read : Reader) : Explores read (trail read) := explores_tree read _

end

/-! Walks with one walker -/

theorem index_locate {α : Type} [ByteSource α] {layout : Layout} {page : α} {index : Nat}
    {rawSize rawOffset : UInt16} {v : TaggedValue}
    (h : TaggedValue.locate layout page index rawSize rawOffset = .ok v) : v.index = index := by
  unfold TaggedValue.locate at h
  obtain ⟨data, -, hv⟩ := Outcome.of_map_ok h
  rw [← hv]
  split <;> rfl

theorem index_read {α : Type} [ByteSource α] {layout : Layout} {data : α} {index : Nat}
    {v : TaggedValue} (h : TaggedValue.read layout data index = .ok v) : v.index = index := by
  unfold TaggedValue.read at h
  split at h
  case isTrue => cases h
  case isFalse =>
    obtain ⟨rawSize, -, h⟩ := Outcome.of_bind_ok h
    obtain ⟨rawOffset, -, h⟩ := Outcome.of_bind_ok h
    exact index_locate h

theorem index_values {page : Page} {values : List TaggedValue} (h : page.values = .ok values) :
    values.map (·.index) = List.range page.tagCount :=
  Outcome.map_mapM (fun _ _ => index_read) h

variable {σ : Type}

structure Call (σ : Type) where
  root : PageId
  onLeaf : Leaf → Callback σ Unit

def walkCalls (file : File) (trace : Trace.Switches) (calls : List (Call σ)) : Walk σ Unit :=
  calls.forM fun c => (Visitor.ofFile file trace fun l => Run.ofCallback (c.onLeaf l)).walk c.root

def handOver (calls : List (Call σ)) (received : List (List Leaf)) : Callback σ Unit :=
  (calls.zip received).forM fun (c, ls) => ls.forM c.onLeaf

theorem explored_walkCalls {file : File} {trace : Trace.Switches} {calls : List (Call σ)} :
    ∀ {w w' : Walker σ}, walkCalls file trace calls w = .ok () w' →
      ∃ steps received, Explored file.readPage w.visited (calls.map (·.root)) steps ∧
        w'.visited = marked w.visited steps ∧ received.length = calls.length ∧
        received.flatten = leaves steps ∧
        handOver calls received w.journal.state = .ok () w'.journal.state := by
  induction calls with
  | nil =>
    intro w w' h
    cases h
    exact ⟨[], [], .nil, (marked_nil _).symm, rfl, rfl, rfl⟩
  | cons c calls ih =>
    intro w w' h
    change ((Visitor.ofFile file trace fun l => Run.ofCallback (c.onLeaf l)).walk c.root >>=
      fun _ => walkCalls file trace calls) w = _ at h
    rw [bind_apply] at h
    split at h
    case h_2 => cases h
    case h_1 u w₁ hw =>
      obtain ⟨first, ht, hr⟩ := Follows.of_ok (Follows.walk (fun _ => rfl) c.root) hw
      have hfirst := explores_trail file.readPage c.root w.visited first ht
      have hstate := state_replay (Visitor.calls_ofCallback file trace c.onLeaf) hr
      obtain ⟨steps, received, hexp, hvisited, hlen, hflat, hstates⟩ := ih h
      rw [visited_replay hr] at hexp hvisited
      refine ⟨first ++ steps, leaves first :: received, hfirst.append hexp, ?_, ?_, ?_, ?_⟩
      · rw [hvisited, marked_append]
      · simp [hlen]
      · simp [hflat]
      · change EStateM.bind ((leaves first).forM c.onLeaf) (fun _ => handOver calls received)
          w.journal.state = _
        unfold EStateM.bind
        rw [hstate]
        exact hstates

/-- The walker when it passes over a page, which it tells unless it is no page at all. -/
def Walker.pass (w : Walker σ) (id : PageId) : Walker σ :=
  if id.isValid then w.tell (.alreadyVisited id) else w

/-- With a level left for it, a page that was visited is passed over, and so is what is no page. -/
theorem walkFrom_skip (v : Visitor σ) (room : Nat) {id : PageId} {w : Walker σ}
    (h : id.isValid → id ∈ w.visited) : v.walkFrom (room + 1) id w = .ok () (w.pass id) := by
  change v.walkChain (v.walkFrom room) (maxDepth - room) (maxChain - 1 + 1) id w = _
  rw [Visitor.walkChain, Walker.pass]
  split
  · rename_i hv
    rw [bind_apply, Walk.enter, if_pos (by simpa using h hv)]
    rfl
  · rfl

/-- What walks have done that started with a fresh walker. -/
structure Exhausted (file : File) (calls : List (Call σ)) (start : σ) (w : Walker σ) : Prop where
  visited : ∀ id, id ∈ w.visited ↔ Reachable file.readPage (calls.map (·.root)) id
  /-- Page by page, each page once and each of its entries once: tags 1 and up of the page, with its
  tag 0 as external key. -/
  delivered : ∃ (pages : List PageId) (received : List (List Leaf)), pages.Nodup ∧
    (∀ id, id ∈ pages ↔ Reachable file.readPage (calls.map (·.root)) id) ∧
    (∀ id ∈ pages, ∃ page values, contents file.readPage id = .ok (page, values) ∧
      values.map (·.index) = List.range page.tagCount) ∧
    received.flatten = pages.flatMap (leafEntries file.readPage) ∧
    received.length = calls.length ∧ handOver calls received start = .ok () w.journal.state
  /-- A further walk from one of the pages only logs that it was there. -/
  again : ∀ root, Reachable file.readPage (calls.map (·.root)) root →
    ∀ v : Visitor σ, v.walk root w = .ok () (w.tell (.alreadyVisited root))

/-- Walks that all succeed visit the pages that can be reached, and deliver what is on them once. -/
theorem exhausted_walkCalls (file : File) (trace : Trace.Switches) (calls : List (Call σ))
    (j : Journal σ) (w : Walker σ)
    (h : walkCalls file trace calls { visited := {}, journal := j } = .ok () w) :
    Exhausted file calls j.state w := by
  obtain ⟨steps, received, hexp, hvisited, hlen, hflat, hstates⟩ := explored_walkCalls h
  have hmem : ∀ id, id ∈ w.visited ↔ Reachable file.readPage (calls.map (·.root)) id := by
    intro id
    rw [hvisited, mem_marked, ← hexp.mem_entered_iff]
    simp
  refine ⟨hmem, ⟨entered steps, received, hexp.nodup, fun id => hexp.mem_entered_iff, ?_, ?_, hlen,
    hstates⟩, fun root hroot v => ?_⟩
  · intro id hid
    obtain ⟨⟨page, values⟩, hc⟩ := hexp.readable id hid
    exact ⟨page, values, hc, index_values (of_contents_ok hc).2⟩
  · rw [hflat, hexp.delivered]
  · have hskip := walkFrom_skip v maxDepth fun _ => (hmem root).mpr hroot
    rwa [Walker.pass, if_pos hroot.isValid] at hskip

end Ese.Tree

namespace Ese.Build

/-! Pages of a file that was built -/

section

variable {layout : Layout} {pages : List (UInt32 × Page)}

def stored (layout : Layout) (x : UInt32 × Page) : Ese.Page :=
  ⟨⟨x.1⟩, Page.headerOf x.2, layout, ⟨(x.2.encode layout).toArray⟩⟩

/-- Pages that were placed fit the layout and are read back. -/
def Reads (read : Tree.Reader) (layout : Layout) (pages : List (UInt32 × Page)) : Prop :=
  ∀ x ∈ pages, x.2.Fits layout ∧ read ⟨x.1⟩ = .ok (stored layout x)

theorem reads_ofPages (h : layout.Supported) (hfits : ∀ x ∈ pages, x.2.Fits layout)
    (hnodup : (pages.map (·.1)).Nodup) :
    Reads (File.ofPages layout pages).opened.readPage layout pages :=
  fun x hx => ⟨hfits x hx, File.readPage_ofPages h hfits hnodup hx⟩

theorem values_stored {id : UInt32} {page : Page} (hfits : page.Fits layout) :
    (stored layout (id, page)).values = .ok (page.items.mapIdx (Page.readBack layout)) :=
  Page.values_encode hfits (stored layout (id, page)) rfl rfl rfl

/-- A page that was placed has the values that were put on it. -/
theorem contents_stored {read : Tree.Reader} {id : UInt32} {page : Page}
    (hfits : page.Fits layout) (hread : read ⟨id⟩ = .ok (stored layout (id, page))) :
    Tree.contents read ⟨id⟩ =
      .ok (stored layout (id, page), page.items.mapIdx (Page.readBack layout)) :=
  Tree.contents_of_ok hread (values_stored hfits)

end

end Ese.Build

namespace Ese.Tree

def ringLayout : Layout := ⟨0x620, 0x11, 4096⟩

/-- A page that is its own next page, in a file with nothing else. -/
def ringPages : List (UInt32 × Build.Page) := [(1, (Build.Page.leaf.withNext 1).addLeaf [7] [8])]

def ringFile : File := (Build.File.ofPages ringLayout ringPages).opened

def ringPage : Page := Build.stored ringLayout (1, (Build.Page.leaf.withNext 1).addLeaf [7] [8])

def ringLeaf : Leaf := ⟨ringPage, [], ⟨1, 0, [1, 0, 7, 8]⟩⟩

theorem fits_ring : ∀ x ∈ ringPages, x.2.Fits ringLayout := by decide

theorem reads_ring : Build.Reads ringFile.readPage ringLayout ringPages :=
  Build.reads_ofPages (by decide) fits_ring (by decide)

theorem trail_ring : trail ringFile.readPage ⟨1⟩ {} =
    ([.enter ⟨1⟩, .visit ⟨1⟩ 0 ringPage.header, .leaf ringLeaf, .again ⟨1⟩], .ok ()) := by
  obtain ⟨hfits, hread⟩ := reads_ring _ List.mem_cons_self
  have hpage : Trail.page ringFile.readPage (Trail.tree ringFile.readPage maxDepth) 0 ⟨1⟩
      (({} : Std.HashSet PageId).insert ⟨1⟩) =
      ([.visit ⟨1⟩ 0 ringPage.header, .leaf ringLeaf], .ok (some ⟨1⟩)) := by
    rw [Trail.page_of_ok hread (Build.values_stored hfits)]
    rfl
  change Trail.chain _ (Trail.tree ringFile.readPage maxDepth) 0 (maxChain - 1 + 1) ⟨1⟩ {} = _
  rw [Trail.chain_enter (by decide) (by simp) hpage]
  rw [show maxChain - 1 = maxChain - 2 + 1 from rfl, Trail.chain_skip (by simp)]
  rfl

def ringCall : Call (List TaggedValue) := ⟨⟨1⟩, fun l => modify (l.value :: ·)⟩

def ringWalker : Walker (List TaggedValue) :=
  ⟨({} : Std.HashSet PageId).insert ⟨1⟩, ⟨#[.alreadyVisited ⟨1⟩], [ringLeaf.value]⟩⟩

theorem exhausted_ring :
    File.ofBytes (Build.File.ofPages ringLayout ringPages).build = .ok ringFile ∧
      walkCalls ringFile {} [ringCall, ringCall] ⟨{}, ⟨#[], []⟩⟩ =
        .ok () (ringWalker.tell (.alreadyVisited ⟨1⟩)) ∧
      Exhausted ringFile [ringCall, ringCall] [] (ringWalker.tell (.alreadyVisited ⟨1⟩)) := by
  let v := Visitor.ofFile ringFile {} fun l => Run.ofCallback (ringCall.onLeaf l)
  have hfirst : v.walk ⟨1⟩ ⟨{}, ⟨#[], []⟩⟩ = .ok () ringWalker := by
    apply Follows.to_ok (Follows.walk (fun _ => rfl) ⟨1⟩) trail_ring
    rfl
  have hagain : v.walk ⟨1⟩ ringWalker = .ok () (ringWalker.tell (.alreadyVisited ⟨1⟩)) := by
    have hvisited : ⟨1⟩ ∈ ringWalker.visited := by simp [ringWalker]
    have hskip := walkFrom_skip v maxDepth fun _ => hvisited
    rwa [Walker.pass, if_pos (by decide)] at hskip
  have hcalls : walkCalls ringFile {} [ringCall, ringCall] ⟨{}, ⟨#[], []⟩⟩ =
      .ok () (ringWalker.tell (.alreadyVisited ⟨1⟩)) := by
    change (v.walk ⟨1⟩ >>= fun _ => v.walk ⟨1⟩ >>= fun _ => pure ()) _ = _
    rw [bind_apply, hfirst]
    change (v.walk ⟨1⟩ >>= fun _ => pure ()) ringWalker = _
    rw [bind_apply, hagain]
    rfl
  exact ⟨Build.File.ofBytes_ofPages (by decide) fits_ring, hcalls,
    exhausted_walkCalls ringFile {} [ringCall, ringCall] ⟨#[], []⟩ _ hcalls⟩

end Ese.Tree
