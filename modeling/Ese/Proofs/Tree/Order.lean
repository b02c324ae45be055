import Mathlib
import Ese.Proofs.Tree.Reachability
/-!
Walks keep the order of a tree. A page can come up through its parent, through the page to its left
or through a linked branch above, and the walk takes whatever comes first; still the visited pages
of each level are a left part of it. The invariant speaks of what is left to do: on each level a
right part, which is what the pages left on the level above list, but for pages visited already.
-/

namespace Ese.Tree

section

variable (read : Reader)

def children (id : PageId) : List PageId :=
  match contents read id with
  | .ok (page, _ :: entries) => if page.header.isLeaf then [] else entries.filterMap childOf
  | _ => []

def nextPage (id : PageId) : PageId :=
  match contents read id with
  | .ok (page, _) => page.header.next
  | .error _ => ⟨0⟩

/-- A leaf page with a tag, all of them readable. -/
def IsLeaf (id : PageId) : Prop :=
  ∃ page external entries, contents read id = .ok (page, external :: entries) ∧
    page.header.isLeaf = true

/-- A branch page with a tag, all of them readable and those of the entries as branch entries. -/
def IsBranch (id : PageId) : Prop :=
  ∃ page external entries, contents read id = .ok (page, external :: entries) ∧
    page.header.isLeaf = false ∧ ∀ value ∈ entries, ∃ entry, BranchEntry.parse value = .ok entry

/-- Each page leads to no page or to the one on its right. -/
def Linked : List PageId → Prop
  | [] => True
  | id :: right =>
    (¬ (nextPage read id).isValid ∨ right.head? = some (nextPage read id)) ∧ Linked right

/-- Each page leads to the one on its right, and the last to no page. -/
def Chained : List PageId → Prop
  | [] => True
  | [id] => ¬ (nextPage read id).isValid
  | id :: next :: right => nextPage read id = next ∧ Chained (next :: right)

/-- Levels of branch pages, each listing the next level from left to right, down to one of
leaves. -/
def Layered : List (List PageId) → Prop
  | [] => False
  | [level] => ∀ id ∈ level, IsLeaf read id
  | level :: next :: below =>
    (∀ id ∈ level, IsBranch read id) ∧ level.flatMap (children read) = next ∧
      Layered (next :: below)

/-- The levels of a tree of uniform height, the top first. Links between neighbours may be there or
not, but on the top level, where nothing else leads from page to page. -/
structure UniformTree (levels : List (List PageId)) : Prop where
  distinct : levels.flatten.Nodup
  valid : ∀ id ∈ levels.flatten, id.isValid
  height : levels.length ≤ maxDepth + 1
  layered : Layered read levels
  linked : ∀ level ∈ levels.tail, Linked read level
  top : ∀ level ∈ levels.head?, Chained read level

/-! What a page leads to -/

section

variable {read : Reader} {id : PageId} {page : Page}

theorem nextPage_of_contents {values : List TaggedValue}
    (hc : contents read id = .ok (page, values)) : nextPage read id = page.header.next := by
  rw [nextPage, hc]

theorem children_of_branch {external : TaggedValue} {entries : List TaggedValue}
    (hc : contents read id = .ok (page, external :: entries))
    (hbranch : page.header.isLeaf = false) :
    children read id = entries.filterMap childOf := by
  simp only [children, hc, hbranch, Bool.false_eq_true, if_false]

end

/-! What is left to do -/

/-- The pages that are left, level by level. Those that the level above lists and that are not left
were visited, and are the first that it lists. -/
def Frontier (visited : Std.HashSet PageId) : List (List PageId) → Prop
  | [] => False
  | [left] => (∀ id ∈ left, IsLeaf read id) ∧ Linked read left
  | left :: next :: below =>
    (∀ id ∈ left, IsBranch read id) ∧ Linked read left ∧
      (∃ done, done ++ next = left.flatMap (children read) ∧ ∀ id ∈ done, id ∈ visited) ∧
      Frontier visited (next :: below)

structure Open (visited : Std.HashSet PageId) (left : List (List PageId)) : Prop where
  frontier : Frontier read visited left
  distinct : left.flatten.Nodup
  valid : ∀ id ∈ left.flatten, id.isValid
  fresh : ∀ id ∈ left.flatten, id ∉ visited

def leftLeaves (left : List (List PageId)) : List Leaf :=
  (left.getLast?.getD []).flatMap (leafEntries read)

/-- The steps do a part of what is left, the leaf entries in order. -/
structure Moves (left : List (List PageId)) (steps : List Step) (left' : List (List PageId)) :
    Prop where
  pages : (entered steps ++ left'.flatten).Perm left.flatten
  delivered : leaves steps ++ leftLeaves read left' = leftLeaves read left

end

section

variable {read : Reader} {visited : Std.HashSet PageId}

theorem Moves.refl (left : List (List PageId)) : Moves read left [] left := ⟨.refl _, rfl⟩

theorem Moves.passed (id : PageId) (left : List (List PageId)) :
    Moves read left (Trail.passed id) left := ⟨by simp, by simp⟩

theorem Moves.trans {l m r : List (List PageId)} {a b : List Step} (h : Moves read l a m)
    (h' : Moves read m b r) : Moves read l (a ++ b) r where
  pages := by
    rw [entered_append, List.append_assoc]
    exact (h'.pages.append_left (entered a)).trans h.pages
  delivered := by
    rw [leaves_append, List.append_assoc, h'.delivered, h.delivered]

theorem Open.moves {left left' : List (List PageId)} {steps : List Step}
    (h : Open read visited left) (hm : Moves read left steps left')
    (hf : Frontier read (marked visited steps) left') :
    Open read (marked visited steps) left' := by
  have hnodup : (entered steps ++ left'.flatten).Nodup := hm.pages.nodup_iff.mpr h.distinct
  have hsub : ∀ id ∈ left'.flatten, id ∈ left.flatten := fun id hid =>
    hm.pages.subset (List.mem_append_right _ hid)
  refine ⟨hf, (List.nodup_append.mp hnodup).2.1, fun id hid => h.valid id (hsub id hid), ?_⟩
  intro id hid hv
  rcases mem_marked.mp hv with hv | hv
  · exact h.fresh id (hsub id hid) hv
  · exact (List.nodup_append.mp hnodup).2.2 id hv id hid rfl

theorem Frontier.mono {more : Std.HashSet PageId} (hsub : ∀ id ∈ visited, id ∈ more) :
    ∀ {left : List (List PageId)}, Frontier read visited left → Frontier read more left
  | [], h => h
  | [_], h => h
  | _ :: _ :: _, ⟨hb, hl, ⟨done, hd, hv⟩, h⟩ =>
    ⟨hb, hl, ⟨done, hd, fun id hid => hsub id (hv id hid)⟩, h.mono hsub⟩

theorem Frontier.linked {left : List PageId} {below : List (List PageId)}
    (h : Frontier read visited (left :: below)) : Linked read left := by
  cases below with
  | nil => exact h.2
  | cons next below => exact h.2.1

/-- When nothing is left on a level, nothing is left below. -/
theorem Frontier.flatten_eq_nil :
    ∀ {left : List (List PageId)}, Frontier read visited ([] :: left) → left.flatten = []
  | [], _ => rfl
  | next :: below, ⟨_, _, ⟨done, hd, _⟩, h⟩ => by
    obtain rfl : next = [] := (List.append_eq_nil_iff.mp hd).2
    exact h.flatten_eq_nil

/-! What the parts of a walk do -/

/-- A visit of the first page that is left succeeds, and does that page and maybe more of its level;
all of it, if the level is chained. -/
structure Does (read : Reader) (visited : Std.HashSet PageId) (id : PageId) (right : List PageId)
    (below : List (List PageId)) (steps : List Step) (done right' : List PageId)
    (below' : List (List PageId)) : Prop where
  part : done ++ right' = right
  through : ∀ p ∈ id :: done, p ∈ marked visited steps
  levels : below'.length = below.length
  moves : Moves read ((id :: right) :: below) steps (right' :: below')
  frontier : Frontier read (marked visited steps) (right' :: below')
  chained : Chained read (id :: right) → right' = []

/-- What descends does so on trees of `n` levels, and passes over what was visited. -/
structure Descends (read : Reader) (descend : PageId → Trail Unit) (n : Nat) : Prop where
  skip : ∀ id visited, id ∈ visited → descend id visited = (Trail.passed id, .ok ())
  does : ∀ id right below visited, below.length + 1 = n →
    Open read visited ((id :: right) :: below) →
    ∃ steps done right' below', descend id visited = (steps, .ok ()) ∧
      Does read visited id right below steps done right' below'

variable {descend : PageId → Trail Unit}

theorem entry_branch {page : Page} (external : TaggedValue) {value : TaggedValue}
    {entry : BranchEntry} (hbranch : page.header.isLeaf = false)
    (hentry : BranchEntry.parse value = .ok entry) (visited : Std.HashSet PageId) :
    Trail.entry descend page external value visited = descend entry.child visited := by
  have hparse : Trail.ofExcept (BranchEntry.parse value) visited = ([], .ok entry) := by
    rw [hentry]
    rfl
  rw [Trail.entry, if_neg (by simp [hbranch]), Trail.bind_of_ok hparse, marked_nil]
  rfl

/-- The children of a page, of which the first may have been visited. -/
theorem does_entries {n : Nat} (hd : Descends read descend n) {page : Page}
    (external : TaggedValue) (hbranch : page.header.isLeaf = false) (rest : List PageId) :
    ∀ (entries : List TaggedValue) (visited : Std.HashSet PageId) (left : List PageId)
      (below : List (List PageId)) (done : List PageId),
      (∀ value ∈ entries, ∃ entry, BranchEntry.parse value = .ok entry) →
      below.length + 1 = n → Open read visited (left :: below) →
      done ++ left = entries.filterMap childOf ++ rest → (∀ id ∈ done, id ∈ visited) →
      ∃ steps done' left' below',
        (entries.forM (Trail.entry descend page external)) visited = (steps, .ok ()) ∧
        done' ++ left' = rest ∧ (∀ id ∈ done', id ∈ marked visited steps) ∧
        below'.length = below.length ∧ Moves read (left :: below) steps (left' :: below') ∧
        Frontier read (marked visited steps) (left' :: below') := by
  intro entries
  induction entries with
  | nil =>
    intro visited left below done _ _ hopen hdone hvisited
    exact ⟨[], done, left, below, rfl, hdone, by simpa using hvisited, rfl, .refl _,
      by simpa using hopen.frontier⟩
  | cons value entries ih =>
    intro visited left below done hparse hlevels hopen hdone hvisited
    obtain ⟨entry, hentry⟩ := hparse value List.mem_cons_self
    have hrest : ∀ value ∈ entries, ∃ entry, BranchEntry.parse value = .ok entry := fun v hv =>
      hparse v (List.mem_cons_of_mem _ hv)
    have hchild : childOf value = some entry.child := by
      rw [childOf, hentry]
      rfl
    rw [List.filterMap_cons, hchild, List.cons_append] at hdone
    have hfirst : Trail.entry descend page external value visited = descend entry.child visited :=
      entry_branch external hbranch hentry visited
    have hforM : (value :: entries).forM (Trail.entry descend page external) =
        (Trail.entry descend page external value >>= fun _ =>
          entries.forM (Trail.entry descend page external)) := rfl
    rw [hforM]
    cases done with
    | nil =>
      -- the child is the first page left on its level
      obtain rfl : left = entry.child :: (entries.filterMap childOf ++ rest) := hdone
      obtain ⟨first, done₁, left₁, below₁, hstep, hdoes⟩ :=
        hd.does entry.child _ below visited hlevels hopen
      obtain ⟨steps, done', left', below', hsteps, hpart, hthrough, hlen, hmoves, hfrontier⟩ :=
        ih (marked visited first) left₁ below₁ done₁ hrest (by rw [hdoes.levels, hlevels])
          (hopen.moves hdoes.moves hdoes.frontier) hdoes.part
          (fun id hid => hdoes.through id (List.mem_cons_of_mem _ hid))
      refine ⟨first ++ steps, done', left', below', ?_, hpart, ?_, hlen.trans hdoes.levels,
        hdoes.moves.trans hmoves, ?_⟩
      · rw [Trail.bind_of_ok (hfirst.trans hstep), hsteps]
      · rwa [marked_append]
      · rwa [marked_append]
    | cons p done =>
      -- the child was visited before
      obtain ⟨rfl, htail⟩ := List.cons.inj hdone
      have hskip := hd.skip _ visited (hvisited _ List.mem_cons_self)
      obtain ⟨steps, done', left', below', hsteps, hpart, hthrough, hlen, hmoves, hfrontier⟩ :=
        ih visited left below done hrest hlevels hopen htail
          (fun id hid => hvisited id (List.mem_cons_of_mem _ hid))
      refine ⟨Trail.passed entry.child ++ steps, done', left', below', ?_, hpart, ?_, hlen,
        (Moves.passed _ _).trans hmoves, ?_⟩
      · rw [Trail.bind_of_ok (hfirst.trans hskip), Trail.marked_passed, hsteps]
      · rwa [marked_append, Trail.marked_passed]
      · rwa [marked_append, Trail.marked_passed]

theorem leftLeaves_cons_cons (a b : List PageId) (below : List (List PageId)) :
    leftLeaves read (a :: b :: below) = leftLeaves read (b :: below) := by
  simp [leftLeaves]

theorem leftLeaves_eq_nil {left : List (List PageId)} (h : left.flatten = []) :
    leftLeaves read left = [] := by
  unfold leftLeaves
  cases hl : left.getLast? with
  | none => rfl
  | some level =>
    have hnil : level = [] := List.flatten_eq_nil_iff.mp h level (List.mem_of_getLast? hl)
    rw [hnil]
    rfl

theorem Open.below {id : PageId} {right next : List PageId} {deeper : List (List PageId)}
    (h : Open read visited ((id :: right) :: next :: deeper)) :
    Open read (visited.insert id) (next :: deeper) := by
  obtain ⟨⟨_, _, _, hf⟩, hd, hv, hn⟩ := h
  rw [List.flatten_cons] at hd hv hn
  obtain ⟨-, hd', hdis⟩ := List.nodup_append.mp hd
  refine ⟨hf.mono (by simp +contextual), hd', fun p hp => hv p (List.mem_append_right _ hp), ?_⟩
  intro p hp hmem
  rcases Std.HashSet.mem_insert.mp hmem with heq | hmem
  · exact hdis id List.mem_cons_self p hp (by simpa using heq)
  · exact hn p (List.mem_append_right _ hp) hmem

theorem does_page {id : PageId} {right : List PageId} {below : List (List PageId)} (depth : Nat)
    (hd : below ≠ [] → Descends read descend below.length)
    (hopen : Open read visited ((id :: right) :: below)) :
    ∃ onPage below', Trail.page read descend depth id (visited.insert id) =
        (onPage, .ok (some (nextPage read id))) ∧ below'.length = below.length ∧
      Moves read ((id :: right) :: below) (.enter id :: onPage) (right :: below') ∧
      Frontier read (marked visited (.enter id :: onPage)) (right :: below') := by
  cases below with
  | nil =>
    obtain ⟨hleaf, hlinked⟩ := hopen.frontier
    obtain ⟨page, external, entries, hc, hl⟩ := hleaf id List.mem_cons_self
    obtain ⟨hread, hvalues⟩ := of_contents_ok hc
    have hlist := leafEntries_of_leaf hc hl
    have hnext := nextPage_of_contents hc
    refine ⟨.visit id depth page.header :: (leafEntries read id).map .leaf, [], ?_, rfl,
      ⟨?_, ?_⟩, ?_⟩
    · rw [Trail.page_of_ok hread hvalues, Trail.values,
        Trail.bind_of_ok (entries_leaf external entries hl _), ← hlist, hnext]
      simp [Pure.pure]
    · simp
    · simp [leftLeaves]
    · exact ⟨fun p hp => hleaf p (List.mem_cons_of_mem _ hp), hlinked.2⟩
  | cons next deeper =>
    obtain ⟨hbranch, hlinked, ⟨done, hdone, hdoneVisited⟩, -⟩ := hopen.frontier
    obtain ⟨page, external, entries, hc, hb, hparse⟩ := hbranch id List.mem_cons_self
    obtain ⟨hread, hvalues⟩ := of_contents_ok hc
    have hchildren := children_of_branch hc hb
    have hnext := nextPage_of_contents hc
    rw [List.flatMap_cons, hchildren] at hdone
    obtain ⟨steps, done', next', deeper', hsteps, hpart, hthrough, hlen, hmoves, hfrontier⟩ :=
      does_entries (hd (List.cons_ne_nil next deeper)) external hb (right.flatMap (children read))
        entries (visited.insert id) next deeper done hparse rfl hopen.below hdone
        (fun p hp => Std.HashSet.mem_insert.mpr (.inr (hdoneVisited p hp)))
    refine ⟨.visit id depth page.header :: steps, next' :: deeper', ?_, by simp [hlen],
      ⟨?_, ?_⟩, ?_⟩
    · rw [Trail.page_of_ok hread hvalues, Trail.values, Trail.bind_of_ok hsteps, hnext]
      simp [Pure.pure]
    · have hperm :=
        (List.perm_append_comm_assoc (entered steps) right (next' :: deeper').flatten).trans
        (hmoves.pages.append_left right)
      simpa using hperm.cons id
    · rw [leftLeaves_cons_cons, leftLeaves_cons_cons]
      exact hmoves.delivered
    · rw [marked_enter, marked_visit]
      exact ⟨fun p hp => hbranch p (List.mem_cons_of_mem _ hp), hlinked.2,
        ⟨done', hpart, hthrough⟩, hfrontier⟩

/-- Along the links of a level. Each page of the chain is one more step of room. -/
theorem does_chain (depth : Nat) :
    ∀ (room : Nat) (id : PageId) (right : List PageId) (below : List (List PageId))
      (visited : Std.HashSet PageId),
      (below ≠ [] → Descends read descend below.length) → right.length + 2 ≤ room →
      Open read visited ((id :: right) :: below) →
      ∃ steps done right' below',
        Trail.chain read descend depth room id visited = (steps, .ok ()) ∧
        Does read visited id right below steps done right' below' := by
  intro room
  induction room with
  | zero => intro id right below visited _ hroom; omega
  | succ room ih =>
    intro id right below visited hd hroom hopen
    have hv : id.isValid := hopen.valid id (by simp)
    have hnew : id ∉ visited := hopen.fresh id (by simp)
    obtain ⟨onPage, below₁, hpage, hlen, hmoves, hfrontier⟩ := does_page depth hd hopen
    have hopen₁ := hopen.moves hmoves hfrontier
    have hin : id ∈ marked visited (.enter id :: onPage) := by simp
    rw [Trail.chain_enter hv hnew hpage, ← marked_enter]
    rcases hopen.frontier.linked.1 with hstop | hnext
    · -- the chain ends here
      obtain ⟨r, rfl⟩ : ∃ r, room = r + 1 := ⟨room - 1, by omega⟩
      rw [Trail.chain_skip (fun h => absurd h hstop), Trail.passed, if_neg hstop, List.append_nil]
      refine ⟨_, [], right, below₁, rfl, rfl, by simp, hlen, hmoves, hfrontier, ?_⟩
      intro hchained
      cases right with
      | nil => rfl
      | cons q right =>
        have hq : q.isValid := hopen.valid q (by simp)
        exact absurd (hchained.1 ▸ hq) hstop
    · -- the next page is the first one left
      obtain ⟨right₂, rfl⟩ : ∃ rest, right = nextPage read id :: rest := by
        cases right with
        | nil => cases hnext
        | cons q rest => exact ⟨rest, by rw [Option.some.inj hnext]⟩
      obtain ⟨steps, done, right', below', hsteps, hdoes⟩ :=
        ih (nextPage read id) right₂ below₁ (marked visited (.enter id :: onPage))
          (fun hne => by
            rw [hlen]
            exact hd fun hnil => hne (List.eq_nil_of_length_eq_zero (by rw [hlen, hnil]; rfl)))
          (by simp only [List.length_cons] at hroom; omega) hopen₁
      rw [hsteps]
      refine ⟨_, nextPage read id :: done, right', below', rfl, ?_, ?_, hdoes.levels.trans hlen,
        hmoves.trans hdoes.moves, ?_, fun hchained => hdoes.chained hchained.2⟩
      · rw [List.cons_append, hdoes.part]
      · intro p hp
        rw [← List.cons_append, marked_append, mem_marked]
        rcases List.mem_cons.mp hp with rfl | hp
        · exact .inl hin
        · exact mem_marked.mp (hdoes.through p hp)
      · rw [← List.cons_append, marked_append]
        exact hdoes.frontier

/-- There are fewer valid page numbers than a chain has room for. -/
theorem length_lt_maxChain {ids : List PageId} (hnodup : ids.Nodup)
    (hvalid : ∀ id ∈ ids, id.isValid) : ids.length + 1 < maxChain := by
  have hinj : Function.Injective fun id : PageId => id.value.toNat := fun a b h => by
    cases a
    cases b
    exact congrArg PageId.mk (UInt32.toNat_inj.mp h)
  have hsub : ids.map (fun id => id.value.toNat) ⊆ List.range' 1 (maxChain - 2) := by
    intro n hn
    obtain ⟨id, hid, rfl⟩ := List.mem_map.mp hn
    have hv := hvalid id hid
    simp only [PageId.isValid, Bool.and_eq_true, bne_iff_ne, ne_eq, ← UInt32.toNat_inj] at hv
    have hzero : id.value.toNat ≠ 0 := hv.1
    have hlast : id.value.toNat ≠ 0xFFFFFFFF := hv.2
    have hlt : id.value.toNat < 4294967296 := id.value.toNat_lt
    rw [List.mem_range'_1]
    unfold maxChain
    omega
  have hle := ((hnodup.map hinj).subperm hsub).length_le
  rw [List.length_map, List.length_range'] at hle
  unfold maxChain at hle ⊢
  omega

theorem Open.length_le {id : PageId} {right : List PageId} {below : List (List PageId)}
    (h : Open read visited ((id :: right) :: below)) : right.length + 2 ≤ maxChain := by
  have hdistinct := h.distinct
  rw [List.flatten_cons] at hdistinct
  have hlt : (id :: right).length + 1 < maxChain :=
    length_lt_maxChain (List.nodup_append.mp hdistinct).1
      fun p hp => h.valid p (List.mem_append_left _ hp)
  exact Nat.le_of_lt hlt

theorem descends_tree (read : Reader) : ∀ {room n : Nat}, 0 < n → n ≤ room →
    Descends read (Trail.tree read room) n := by
  intro room
  induction room with
  | zero => intro n hn hle; omega
  | succ room ih =>
    intro n hn hle
    constructor
    · intro id visited hid
      change Trail.chain read (Trail.tree read room) _ (maxChain - 1 + 1) id visited = _
      exact Trail.chain_skip fun _ => hid
    · intro id right below visited hlevels hopen
      refine does_chain (maxDepth - room) maxChain id right below visited (fun hne => ?_)
        hopen.length_le hopen
      exact ih (List.length_pos_iff.mpr hne) (by omega)

theorem Chained.linked : ∀ {level : List PageId}, Chained read level → Linked read level
  | [], _ => trivial
  | [_], h => ⟨.inl h, trivial⟩
  | _ :: _ :: _, ⟨hn, h⟩ => ⟨.inr (by rw [hn]; rfl), h.linked⟩

theorem Layered.frontier : ∀ {levels : List (List PageId)}, Layered read levels →
    (∀ level ∈ levels, Linked read level) → Frontier read {} levels
  | [], h, _ => h
  | [level], h, hl => ⟨h, hl level List.mem_cons_self⟩
  | level :: next :: below, ⟨hb, hn, h⟩, hl =>
    ⟨hb, hl level List.mem_cons_self, ⟨[], by simp [hn], by simp⟩,
      h.frontier fun l hlm => hl l (List.mem_cons_of_mem level hlm)⟩

theorem UniformTree.open_levels {levels : List (List PageId)} (h : UniformTree read levels) :
    Open read {} levels := by
  refine ⟨h.layered.frontier fun level hlevel => ?_, h.distinct, h.valid, by simp⟩
  cases levels with
  | nil => cases hlevel
  | cons top below =>
    rcases List.mem_cons.mp hlevel with rfl | hlevel
    · exact (h.top level rfl).linked
    · exact h.linked level hlevel

/-- The trail of a tree from its first page: every page once, and the leaf entries in order. -/
theorem trail_uniformTree {root : PageId} {right : List PageId} {below : List (List PageId)}
    (h : UniformTree read ((root :: right) :: below)) :
    ∃ steps, trail read root {} = (steps, .ok ()) ∧
      (entered steps).Perm ((root :: right) :: below).flatten ∧
      leaves steps = leftLeaves read ((root :: right) :: below) := by
  have hd := descends_tree read (Nat.succ_pos below.length) h.height
  obtain ⟨steps, done, right', below', hsteps, hdoes⟩ :=
    hd.does root right below {} rfl h.open_levels
  have hright : right' = [] := hdoes.chained (h.top _ rfl)
  subst hright
  have hnone : ([] :: below').flatten = [] := hdoes.frontier.flatten_eq_nil
  have hpages := hdoes.moves.pages
  have hdelivered := hdoes.moves.delivered
  rw [hnone, List.append_nil] at hpages
  have hlast : leftLeaves read ([] :: below') = [] := leftLeaves_eq_nil hnone
  rw [hlast, List.append_nil] at hdelivered
  exact ⟨steps, hsteps, hpages, hdelivered⟩

end

/-! Pages that are entered are read -/

section

variable {read : Reader} {α β : Type}

/-- The parts that succeed read the pages that they enter, one after the other. -/
def Reads (t : Trail α) : Prop :=
  ∀ visited steps a, t visited = (steps, .ok a) → loggedPages (told true steps) = entered steps

namespace Reads

theorem pure (a : α) : Reads (Pure.pure a : Trail α) := by
  intro visited steps b h
  cases h
  rfl

theorem ofExcept (x : Except DecodeError α) : Reads (Trail.ofExcept x) := by
  intro visited steps a h
  rw [(Trail.of_ofExcept_ok h).2]
  rfl

theorem bind {t : Trail α} {f : α → Trail β} (ht : Reads t) (hf : ∀ a, Reads (f a)) :
    Reads (t >>= f) := by
  intro visited steps b h
  obtain ⟨first, a, rest, hfirst, hrest, rfl⟩ := Trail.of_bind_ok h
  have h₁ := ht _ _ _ hfirst
  have h₂ := hf a _ _ _ hrest
  rw [told_append, entered_append, ← h₁, ← h₂]
  exact List.filterMap_append

theorem forM {f : α → Trail Unit} (hf : ∀ a, Reads (f a)) (as : List α) : Reads (as.forM f) := by
  induction as with
  | nil => exact pure ()
  | cons a as ih => exact bind (hf a) fun _ => ih

variable {descend : PageId → Trail Unit}

theorem values (hd : ∀ id, Reads (descend id)) (page : Page) (vs : List TaggedValue) :
    Reads (Trail.values descend page vs) := by
  cases vs with
  | nil => exact pure none
  | cons external entries =>
    refine bind (forM (fun value => ?_) entries) fun _ => pure _
    unfold Trail.entry
    split
    · intro visited steps a h
      cases h
      rfl
    · exact bind (ofExcept _) fun entry => hd entry.child

theorem chain (hd : ∀ id, Reads (descend id)) (depth : Nat) :
    ∀ (room : Nat) (id : PageId), Reads (Trail.chain read descend depth room id) := by
  intro room
  induction room with
  | zero => exact fun id => ofExcept _
  | succ room ih =>
    intro id
    rw [Trail.chain]
    split
    case isFalse => exact pure ()
    case isTrue =>
      intro visited steps a h
      obtain ⟨first, fresh, rest, hfirst, hrest, rfl⟩ := Trail.of_bind_ok h
      unfold Trail.enter at hfirst
      split at hfirst
      · cases hfirst
        cases hrest
        rfl
      · cases hfirst
        obtain ⟨onPage, next, behind, hpage, hbehind, rfl⟩ := Trail.of_bind_ok hrest
        obtain ⟨page, vs, onValues, -, hvalues, rfl⟩ := of_page_ok hpage
        have h₁ := values hd page vs _ _ _ hvalues
        have h₂ : loggedPages (told true behind) = entered behind := by
          cases next with
          | none => exact pure () _ _ _ hbehind
          | some next => exact ih next _ _ _ hbehind
        change id :: loggedPages (told true (onValues ++ behind)) =
          id :: entered (onValues ++ behind)
        rw [told_append, entered_append, ← h₁, ← h₂]
        exact congrArg _ List.filterMap_append

theorem tree (room : Nat) (id : PageId) : Reads (Trail.tree read room id) := by
  induction room generalizing id with
  | zero => exact ofExcept _
  | succ room ih => exact chain ih _ _ id

end Reads

end

/-! Walks of trees -/

/-- What a walk of a tree has done: it has visited the pages and read each of them once, and the
callback got the entries of the leaf level from left to right. -/
structure InOrder {σ : Type} (file : File) (trace : Trace.Switches) (f : Leaf → Callback σ Unit)
    (levels : List (List PageId)) (j : Journal σ) (w : Walker σ) : Prop where
  visited : ∀ id, id ∈ w.visited ↔ id ∈ levels.flatten
  logged : ∃ events, w.journal.log.toList = j.log.toList ++ events ∧
    (trace.pages → (loggedPages events).Perm levels.flatten)
  delivered : ∃ leafLevel, levels.getLast? = some leafLevel ∧
    (leafLevel.flatMap (leafEntries file.readPage)).forM f j.state = .ok () w.journal.state

theorem walk_uniformTree {σ : Type} (file : File) (trace : Trace.Switches)
    (f : Leaf → Callback σ Unit) (root : PageId) (right : List PageId)
    (below : List (List PageId)) (j : Journal σ)
    (htree : UniformTree file.readPage ((root :: right) :: below))
    (htotal : ∀ l s, ∃ s', f l s = .ok () s') :
    ∃ w, (Visitor.ofFile file trace fun l => Run.ofCallback (f l)).walk root
        { visited := {}, journal := j } = .ok () w ∧
      InOrder file trace f ((root :: right) :: below) j w := by
  obtain ⟨steps, htrail, hpages, hleaves⟩ := trail_uniformTree htree
  have hcalls := Visitor.calls_ofCallback file trace f
  obtain ⟨s, hs⟩ := forM_of_total htotal (leaves steps) j.state
  obtain ⟨w, hreplay, hstate⟩ :=
    replay_of_state (w := { visited := {}, journal := j }) hcalls hs
  refine ⟨w, Follows.to_ok (Follows.walk (fun _ => rfl) root) htrail hreplay, ?_, ?_, ?_⟩
  · intro id
    rw [visited_replay hreplay, mem_marked, hpages.mem_iff]
    simp
  · refine ⟨_, log_replay hreplay, fun hp => ?_⟩
    rw [hp, Reads.tree _ _ _ _ _ htrail]
    exact hpages
  · obtain ⟨leafLevel, hlast⟩ : ∃ l, ((root :: right) :: below).getLast? = some l :=
      ⟨_, List.getLast?_eq_some_getLast (List.cons_ne_nil _ _)⟩
    refine ⟨leafLevel, hlast, ?_⟩
    rw [hstate, ← hs, hleaves, leftLeaves, hlast]
    rfl

def forkRoot : Build.Page := (Build.Page.branch.addChild [] 2).addChild [] 3

def forkLeft : Build.Page := (Build.Page.leaf.withNext 3).addLeaf [] [8]

def forkRight : Build.Page := Build.Page.leaf.addLeaf [] [9]

/-- A branch page and its two leaf pages, the first of which leads to the second. -/
def forkPages : List (UInt32 × Build.Page) := [(1, forkRoot), (2, forkLeft), (3, forkRight)]

def forkFile : File := (Build.File.ofPages ringLayout forkPages).opened

def forkStored (id : UInt32) (page : Build.Page) : Page := Build.stored ringLayout (id, page)

def forkChild (index : Nat) (child : UInt8) : TaggedValue := ⟨index, 0, [0, 0, child, 0, 0, 0]⟩

theorem fits_fork : ∀ x ∈ forkPages, x.2.Fits ringLayout := by decide

theorem contents_fork {id : UInt32} {page : Build.Page} (h : (id, page) ∈ forkPages) :
    contents forkFile.readPage ⟨id⟩ = .ok (forkStored id page,
      page.items.mapIdx (Build.Page.readBack ringLayout)) := by
  have hreads : Build.Reads forkFile.readPage ringLayout forkPages :=
    Build.reads_ofPages (by decide) fits_fork (by decide)
  obtain ⟨hfits, hread⟩ := hreads _ h
  exact Build.contents_stored hfits hread

theorem contents_forkRoot : contents forkFile.readPage ⟨1⟩ =
    .ok (forkStored 1 forkRoot, [⟨0, 0, []⟩, forkChild 1 2, forkChild 2 3]) :=
  contents_fork (by decide)

theorem contents_forkLeft : contents forkFile.readPage ⟨2⟩ =
    .ok (forkStored 2 forkLeft, [⟨0, 0, []⟩, ⟨1, 0, [0, 0, 8]⟩]) :=
  contents_fork (by decide)

theorem contents_forkRight : contents forkFile.readPage ⟨3⟩ =
    .ok (forkStored 3 forkRight, [⟨0, 0, []⟩, ⟨1, 0, [0, 0, 9]⟩]) :=
  contents_fork (by decide)

theorem leafEntries_fork :
    leafEntries forkFile.readPage ⟨2⟩ = [⟨forkStored 2 forkLeft, [], ⟨1, 0, [0, 0, 8]⟩⟩] ∧
      leafEntries forkFile.readPage ⟨3⟩ = [⟨forkStored 3 forkRight, [], ⟨1, 0, [0, 0, 9]⟩⟩] :=
  ⟨leafEntries_of_leaf contents_forkLeft rfl, leafEntries_of_leaf contents_forkRight rfl⟩

theorem uniformTree_fork : UniformTree forkFile.readPage [[⟨1⟩], [⟨2⟩, ⟨3⟩]] where
  distinct := by decide
  valid := by decide
  height := by decide
  layered := by
    refine ⟨?_, ?_, ?_⟩
    · simp only [List.mem_singleton, forall_eq]
      refine ⟨_, _, _, contents_forkRoot, rfl, ?_⟩
      simp only [List.mem_cons, List.not_mem_nil, or_false, forall_eq_or_imp, forall_eq]
      exact ⟨⟨_, rfl⟩, ⟨_, rfl⟩⟩
    · rw [List.flatMap_singleton, children_of_branch contents_forkRoot rfl]
      rfl
    · simp only [Layered, List.mem_cons, List.not_mem_nil, or_false, forall_eq_or_imp, forall_eq]
      exact ⟨⟨_, _, _, contents_forkLeft, rfl⟩, ⟨_, _, _, contents_forkRight, rfl⟩⟩
  linked := by
    have hleft : nextPage forkFile.readPage ⟨2⟩ = ⟨3⟩ := nextPage_of_contents contents_forkLeft
    have hright : nextPage forkFile.readPage ⟨3⟩ = ⟨0⟩ := nextPage_of_contents contents_forkRight
    simp only [List.tail_cons, List.mem_singleton, forall_eq, Linked, hleft, hright]
    decide
  top := by
    have hroot : nextPage forkFile.readPage ⟨1⟩ = ⟨0⟩ := nextPage_of_contents contents_forkRoot
    simp only [List.head?_cons, Option.mem_def, Option.some.injEq, forall_eq', Chained, hroot]
    decide

theorem inOrder_fork :
    File.ofBytes (Build.File.ofPages ringLayout forkPages).build = .ok forkFile ∧
      UniformTree forkFile.readPage [[⟨1⟩], [⟨2⟩, ⟨3⟩]] ∧
      ∃ w, (Visitor.ofFile forkFile {} fun l => Run.ofCallback (modify (· ++ [l.value.data]))).walk
          ⟨1⟩ { visited := {}, journal := ⟨#[], []⟩ } = .ok () w ∧
        w.journal.state = [[0, 0, 8], [0, 0, 9]] := by
  refine ⟨Build.File.ofBytes_ofPages (by decide) fits_fork, uniformTree_fork, ?_⟩
  obtain ⟨w, hw, hin⟩ := walk_uniformTree forkFile {} (fun l => modify (· ++ [l.value.data])) ⟨1⟩ []
    [[⟨2⟩, ⟨3⟩]] ⟨#[], []⟩ uniformTree_fork fun l s => ⟨s ++ [l.value.data], rfl⟩
  refine ⟨w, hw, ?_⟩
  obtain ⟨leafLevel, hlast, hrun⟩ := hin.delivered
  obtain rfl : leafLevel = [⟨2⟩, ⟨3⟩] := (Option.some.inj hlast).symm
  rw [List.flatMap_cons, List.flatMap_singleton, leafEntries_fork.1, leafEntries_fork.2] at hrun
  exact (EStateM.Result.ok.inj hrun).2.symm

end Ese.Tree
