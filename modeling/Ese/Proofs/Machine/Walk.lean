import Mathlib
import Ese.Proofs.Machine.Entries
import Ese.Proofs.Tree.Bounds
import Ese.Proofs.Tree.Reachability
/-!
Walks with checked operations. A walk with these is matched with the walk, page by page; the states
of the two callbacks may differ and are linked. How many leaf entries have been handed over is
bounded by the pages visited, of which there are fewer than page numbers, so a callback can rely on
it.
-/

namespace Ese.Machine

open Ese.Tree

variable {σ τ α β : Type}

def visitor (file : File) (trace : Trace.Switches) (onLeaf : Leaf → Run σ Unit) : Visitor σ where
  readPage id := liftM (readPage file id)
  logPages := trace.pages
  onLeaf := onLeaf

section

variable (v : Visitor σ)

def walkEntry (descend : (depth : Nat) → PageId → Walk σ Unit) (depth : Nat) (page : Page)
    (external value : TaggedValue) : Walk σ Unit :=
  if page.header.isLeaf then Walk.ofRun (v.onLeaf { page, external := external.data, value })
  else do
    let entry ← parseBranch value
    let below ← add 64 depth 1
    descend below entry.child

def finish (descend : (depth : Nat) → PageId → Walk σ Unit) (depth : Nat)
    (rest : PageId → Walk σ Unit) (page : Page) : Walk σ Unit := do
  match ← values page with
  | [] => pure ()
  | external :: entries => do
    entries.forM (walkEntry v descend depth page external)
    rest page.header.next

def walkChain (descend : (depth : Nat) → PageId → Walk σ Unit) (depth : Nat) :
    (steps : Nat) → PageId → Walk σ Unit
  | 0, id => Visitor.endless id
  | steps + 1, id =>
    if id.isValid then v.visit depth id (finish v descend depth (walkChain descend depth steps))
    else pure ()

def walkFrom : (nest depth : Nat) → PageId → Walk σ Unit
  | 0, _, start => Visitor.endless start
  | nest + 1, depth, start =>
    if maxDepth < depth then throw (.decode (.format (.treeTooDeep start maxDepth)))
    else walkChain v (walkFrom nest) depth Tree.maxChain start

def walk (root : PageId) : Walk σ Unit := walkFrom v (maxDepth + 2) 0 root

def survey (roots : List PageId) : Run σ Nat := fun journal =>
  match roots.forM (walk v) { visited := {}, journal } with
  | .ok () w => .ok w.visited.size w.journal
  | .error e w => .error e w.journal

end

/-! Matching walks -/

/-- The same log, and states that are linked while `count` entries have been handed over at most. -/
def Noted (T : Nat → σ → τ → Prop) (count : Nat) (j : Journal σ) (j' : Journal τ) : Prop :=
  j.log = j'.log ∧ T count j.state j'.state

def pageLimit : Nat := 2 ^ 16

/-- What two callbacks have to do for walks with them to match. -/
structure Matched (P : Error → Prop) (T : Nat → σ → τ → Prop) (onLeaf : Leaf → Run σ Unit)
    (onLeaf' : Leaf → Run τ Unit) : Prop where
  expected : ∀ e : DecodeError, e.Faultless → P e
  mono : ∀ {m n : Nat} {s : σ} {t : τ}, T m s t → m ≤ n → T n s t
  leaf : ∀ l : Leaf, l.value.data.length < 2 ^ 15 → ∀ count < pageLimit * 2 ^ 32, ∀ j j',
    Noted T count j j' → Agree P (Noted T (count + 1)) (onLeaf l j) (onLeaf' l j')

/-- The same pages visited, and as many entries handed over as these can have. -/
def Linked (T : Nat → σ → τ → Prop) (w : Walker σ) (w' : Walker τ) : Prop :=
  w.visited = w'.visited ∧ Noted T (pageLimit * w'.visited.size) w.journal w'.journal

/-- With at most `n` unseen pages the walks end alike, and none comes back. -/
def Matches (file : File) (P : Error → Prop) (T : Nat → σ → τ → Prop) (n : Nat) (a : Walk σ α)
    (b : Walk τ α) : Prop :=
  ∀ w w', Linked T w w' → unseen file w'.visited ≤ n →
    Agree P (fun u u' => Linked T u u' ∧ unseen file u'.visited ≤ unseen file w'.visited)
      (a w) (b w')

theorem size_le (visited : Std.HashSet PageId) : visited.size ≤ 2 ^ 32 := by
  have hnodup : visited.toList.Nodup :=
    visited.distinct_toList.imp fun {a b} hne heq => by simp [heq] at hne
  have hinj : Function.Injective fun id : PageId => id.value.toFin :=
    fun a b h => congrArg PageId.mk (UInt32.toFin_inj.mp h)
  have hcard := (hnodup.map hinj).length_le_card
  rwa [List.length_map, Std.HashSet.length_toList, Fintype.card_fin] at hcard

namespace Matches

variable {file : File} {P : Error → Prop} {T : Nat → σ → τ → Prop} {m n : Nat}

theorem mono {a : Walk σ α} {b : Walk τ α} (h : Matches file P T n a b) (hm : m ≤ n) :
    Matches file P T m a b := fun w w' hw hseen => h w w' hw (hseen.trans hm)

theorem pure (a : α) : Matches file P T n (pure a : Walk σ α) (pure a) :=
  fun _ _ hw _ => .ok ⟨hw, le_rfl⟩

theorem throw {e : Error} (h : P e) : Matches file P T n (throw e : Walk σ α) (throw e) :=
  fun _ _ hw _ => .error h ⟨hw, le_rfl⟩

theorem bind {a : Walk σ α} {b : Walk τ α} {f : α → Walk σ β} {g : α → Walk τ β}
    (h : Matches file P T n a b) (hf : ∀ x, Matches file P T n (f x) (g x)) :
    Matches file P T n (a >>= f) (b >>= g) := by
  intro w w' hw hseen
  refine (h w w' hw hseen).bind (fun x u u' _ hu => ?_) fun _ _ hu => hu
  obtain ⟨hlinked, hleft⟩ := hu
  refine (hf x u u' hlinked (hleft.trans hseen)).mono (fun _ => id) fun _ _ hv => ?_
  exact ⟨hv.1, hv.2.trans hleft⟩

theorem lift {x y : Except DecodeError α} (h : Safe x y)
    (hP : ∀ e : DecodeError, e.Faultless → P e) :
    Matches file P T n (liftM x : Walk σ α) (liftM y) := by
  obtain ⟨rfl, hx⟩ := h
  rcases x with e | a
  · exact throw (hP e (hx e rfl))
  · exact pure a

theorem step {x : Except DecodeError α} {a : α} {f : α → Walk σ β} {b : Walk τ β} (h : x = .ok a)
    (hf : Matches file P T n (f a) b) : Matches file P T n (liftM x >>= f) b := by
  rw [h]
  exact hf

theorem forM {γ : Type} {f : γ → Walk σ Unit} {g : γ → Walk τ Unit} {xs : List γ}
    (h : ∀ x ∈ xs, Matches file P T n (f x) (g x)) :
    Matches file P T n (xs.forM f) (xs.forM g) := by
  induction xs with
  | nil => exact pure ()
  | cons x xs ih =>
    exact bind (h x List.mem_cons_self) fun _ => ih fun y hy => h y (List.mem_cons_of_mem x hy)

end Matches

/-! One page -/

section

variable {file : File} {P : Error → Prop} {T : Nat → σ → τ → Prop} {n : Nat}
  {trace : Trace.Switches}
  {onLeaf : Leaf → Run σ Unit} {onLeaf' : Leaf → Run τ Unit} {page : Page}
  {descend : Nat → PageId → Walk σ Unit} {descend' : PageId → Walk τ Unit}
  {rest : PageId → Walk σ Unit} {rest' : PageId → Walk τ Unit}

theorem finish_eq (v : Visitor τ) (descend rest : PageId → Walk τ Unit) (page : Page) :
    v.finish descend rest page = (do
      match ← page.values with
      | [] => pure ()
      | external :: entries => do
        entries.forM (v.walkEntry descend page external)
        rest page.header.next) := by
  unfold Visitor.finish
  refine congrArg (liftM page.values >>= ·) (funext fun values => ?_)
  rcases values with _ | ⟨external, entries⟩
  · rfl
  · unfold Visitor.walkValues
    simp only [bind_assoc]
    rfl

theorem length_clearInValueFlags (data : Bytes) :
    (TaggedValue.clearInValueFlags data).length = data.length := by
  unfold TaggedValue.clearInValueFlags
  split <;> rfl

theorem length_read_lt {layout : Layout} {data : ByteArray} {index : Nat} {v : TaggedValue}
    (h : TaggedValue.read layout data index = .ok v) : v.data.length < 2 ^ 15 := by
  unfold TaggedValue.read at h
  split at h
  · cases h
  obtain ⟨rawSize, -, h⟩ := Outcome.of_bind_ok h
  obtain ⟨rawOffset, -, h⟩ := Outcome.of_bind_ok h
  obtain ⟨bytes, hslice, rfl⟩ := Outcome.of_map_ok h
  have hbytes : bytes.length < 2 ^ 15 := by
    obtain ⟨-, rfl⟩ := slice_eq_ok_iff.mp (slice_eq_slice_toBytes data .. ▸ hslice)
    refine lt_of_le_of_lt (List.length_take_le ..) ?_
    split
    · exact lt_of_eq_of_lt (Field.low15 rawSize) (Nat.mod_lt _ (by decide))
    · exact lt_of_eq_of_lt (Field.low13 rawSize) ((Nat.mod_lt _ (by decide)).trans (by decide))
  split
  · change (TaggedValue.clearInValueFlags bytes).length < _
    rwa [length_clearInValueFlags]
  · exact hbytes

theorem length_values_lt {values : List TaggedValue} (h : page.values = .ok values) :
    ∀ v ∈ values, v.data.length < 2 ^ 15 := by
  intro v hv
  obtain ⟨index, -, hread⟩ := Outcome.of_mem_mapM h hv
  exact length_read_lt hread

theorem length_entries_lt {external : TaggedValue} {entries : List TaggedValue}
    (h : page.values = .ok (external :: entries)) : entries.length < pageLimit := by
  have hlength := congrArg List.length (index_values h)
  have htags := page.header.tagCount.toNat_lt
  rw [List.length_map, List.length_range, List.length_cons] at hlength
  change entries.length + 1 = page.header.tagCount.toNat at hlength
  unfold pageLimit
  omega

theorem agree_leaves (h : Matched P T onLeaf onLeaf') (hleaf : page.header.isLeaf) (depth : Nat)
    (external : TaggedValue) (entries : List TaggedValue)
    (hshort : ∀ v ∈ entries, v.data.length < 2 ^ 15) {count : Nat}
    (hcount : count + entries.length ≤ pageLimit * 2 ^ 32) (w : Walker σ) (w' : Walker τ)
    (hvisited : w.visited = w'.visited) (hw : Noted T count w.journal w'.journal) :
    Agree P (fun u u' => u.visited = u'.visited ∧ u'.visited = w'.visited ∧
        Noted T (count + entries.length) u.journal u'.journal)
      (entries.forM (walkEntry (visitor file trace onLeaf) descend depth page external) w)
      (entries.forM ((Visitor.ofFile file trace onLeaf').walkEntry descend' page external) w') := by
  induction entries generalizing count w w' with
  | nil => exact .ok ⟨hvisited, rfl, hw⟩
  | cons value entries ih =>
    have hentry : walkEntry (visitor file trace onLeaf) descend depth page external value w =
        Walk.ofRun (onLeaf ⟨page, external.data, value⟩) w := by
      rw [walkEntry, if_pos hleaf]
      rfl
    have hentry' : (Visitor.ofFile file trace onLeaf').walkEntry descend' page external value w' =
        Walk.ofRun (onLeaf' ⟨page, external.data, value⟩) w' := by
      rw [Visitor.walkEntry, if_pos hleaf]
      rfl
    rw [List.length_cons] at hcount ⊢
    have hagree := h.leaf ⟨page, external.data, value⟩ (hshort value List.mem_cons_self) count
      (by omega) _ _ hw
    rw [forM_cons_apply, forM_cons_apply, hentry, hentry']
    unfold Walk.ofRun
    generalize onLeaf ⟨page, external.data, value⟩ w.journal = r at hagree ⊢
    generalize onLeaf' ⟨page, external.data, value⟩ w'.journal = r' at hagree ⊢
    rcases hagree with @⟨_, s, t, hj⟩ | ⟨he, hj⟩
    · have hrest := ih (fun v hv => hshort v (List.mem_cons_of_mem value hv))
        (show count + 1 + entries.length ≤ pageLimit * 2 ^ 32 by omega) { w with journal := s }
        { w' with journal := t } hvisited hj
      rw [Nat.add_assoc, Nat.add_comm 1] at hrest
      exact hrest
    · refine .error he ⟨hvisited, rfl, hj.1, h.mono hj.2 (by omega)⟩

def Opened (T : Nat → σ → τ → Prop) (w : Walker σ) (w' : Walker τ) : Prop :=
  w.visited = w'.visited ∧ ∃ k < w'.visited.size, Noted T (pageLimit * k) w.journal w'.journal

theorem Opened.linked (h : Matched P T onLeaf onLeaf') {w : Walker σ} {w' : Walker τ}
    (hw : Opened T w w') : Linked T w w' := by
  obtain ⟨hvisited, k, hk, hlog, hstate⟩ := hw
  exact ⟨hvisited, hlog, h.mono hstate (Nat.mul_le_mul_left pageLimit hk.le)⟩

/-- The children of the entries of a branch page are descended into. -/
theorem matches_branches (h : Matched P T onLeaf onLeaf') (hbranch : ¬ page.header.isLeaf)
    {depth : Nat} (hdepth : depth ≤ maxDepth)
    (hd : ∀ id, Matches file P T n (descend (depth + 1) id) (descend' id)) (external : TaggedValue)
    (entries : List TaggedValue) :
    Matches file P T n
      (entries.forM (walkEntry (visitor file trace onLeaf) descend depth page external))
      (entries.forM ((Visitor.ofFile file trace onLeaf').walkEntry descend' page external)) := by
  have hmax : maxDepth = 64 := rfl
  refine .forM fun value _ => ?_
  rw [walkEntry, Visitor.walkEntry, if_neg hbranch, if_neg hbranch]
  refine .bind (.lift (safe_parseBranch value) h.expected) fun entry => ?_
  exact .step (add_eq (by omega)) (hd entry.child)

theorem agree_entries (h : Matched P T onLeaf onLeaf') {depth : Nat} (hdepth : depth ≤ maxDepth)
    (hd : ∀ id, Matches file P T n (descend (depth + 1) id) (descend' id)) {external : TaggedValue}
    {entries : List TaggedValue} (hvalues : page.values = .ok (external :: entries)) {w : Walker σ}
    {w' : Walker τ} (hw : Opened T w w') (hseen : unseen file w'.visited ≤ n) :
    Agree P (fun u u' => Linked T u u' ∧ unseen file u'.visited ≤ unseen file w'.visited)
      (entries.forM (walkEntry (visitor file trace onLeaf) descend depth page external) w)
      (entries.forM ((Visitor.ofFile file trace onLeaf').walkEntry descend' page external) w') := by
  by_cases hleaf : page.header.isLeaf
  · obtain ⟨hvisited, k, hk, hnoted⟩ := hw
    have hfew := length_entries_lt hvalues
    have hpages := size_le w'.visited
    -- the entries of this page are what is left for it
    have hcount : pageLimit * k + entries.length ≤ pageLimit * w'.visited.size := calc
      _ ≤ pageLimit * k + pageLimit := Nat.add_le_add_left hfew.le _
      _ = pageLimit * (k + 1) := rfl
      _ ≤ _ := Nat.mul_le_mul_left pageLimit hk
    have hshort : ∀ v ∈ entries, v.data.length < 2 ^ 15 :=
      fun v hv => length_values_lt hvalues v (List.mem_cons_of_mem external hv)
    refine (agree_leaves h hleaf depth external entries hshort
      (hcount.trans (Nat.mul_le_mul_left pageLimit hpages)) w w' hvisited hnoted).mono
        (fun _ => id) ?_
    rintro u u' ⟨hu, hsame, hlog, hstate⟩
    rw [← hsame] at hcount ⊢
    exact ⟨⟨hu, hlog, h.mono hstate hcount⟩, le_rfl⟩
  · exact matches_branches h hleaf hdepth hd external entries w w' (hw.linked h) hseen

theorem agree_finish (h : Matched P T onLeaf onLeaf') (hsupported : page.layout.Supported)
    {depth : Nat} (hdepth : depth ≤ maxDepth)
    (hd : ∀ id, Matches file P T n (descend (depth + 1) id) (descend' id))
    (hrest : ∀ id, Matches file P T n (rest id) (rest' id)) {w : Walker σ} {w' : Walker τ}
    (hw : Opened T w w') (hseen : unseen file w'.visited ≤ n) :
    Agree P (fun u u' => Linked T u u' ∧ unseen file u'.visited ≤ unseen file w'.visited)
      (finish (visitor file trace onLeaf) descend depth rest page w)
      ((Visitor.ofFile file trace onLeaf').finish descend' rest' page w') := by
  rw [finish_eq, finish]
  obtain ⟨hsame, hfaultless⟩ := safe_values hsupported
  rw [hsame]
  rcases hvalues : page.values with e | _ | ⟨external, entries⟩
  · exact .error (h.expected e (hfaultless e hvalues)) ⟨hw.linked h, le_rfl⟩
  · exact .ok ⟨hw.linked h, le_rfl⟩
  · refine (agree_entries h hdepth hd hvalues hw hseen).bind (fun _ u u' _ hu => ?_) fun _ _ => id
    obtain ⟨hlinked, hleft⟩ := hu
    refine (hrest page.header.next u u' hlinked (hleft.trans hseen)).mono (fun _ => id) ?_
    exact fun _ _ hv => ⟨hv.1, hv.2.trans hleft⟩

theorem layout_of_readPage {id : PageId} (hread : file.readPage id = .ok page) :
    page.layout = file.layout := by
  simp only [File.readPage] at hread
  split at hread
  · cases hread
  · obtain ⟨header, -, hpage⟩ := Outcome.of_bind_ok hread
    cases hpage
    rfl

/-- On a page that was not visited before there are fewer pages left. -/
theorem matches_page (h : Matched P T onLeaf onLeaf') (hsupported : file.layout.Supported)
    {depth : Nat} (hdepth : depth ≤ maxDepth) {id : PageId} (hv : id.isValid)
    (hd : ∀ id, Matches file P T n (descend (depth + 1) id) (descend' id))
    (hrest : ∀ m < n, ∀ id, Matches file P T m (rest id) (rest' id)) :
    Matches file P T n
      ((visitor file trace onLeaf).visit depth id
        (finish (visitor file trace onLeaf) descend depth rest))
      ((Visitor.ofFile file trace onLeaf').visit depth id
        ((Visitor.ofFile file trace onLeaf').finish descend' rest')) := by
  intro w w' hw hseen
  obtain ⟨hvisited, hlog, hstate⟩ := hw
  by_cases hnew : id ∈ w'.visited
  · rw [Visitor.visit_old (hvisited ▸ hnew), Visitor.visit_old hnew]
    exact .ok ⟨⟨hvisited, congrArg (·.push (.alreadyVisited id)) hlog, hstate⟩, le_rfl⟩
  have hmore : (w'.visited.insert id).size = w'.visited.size + 1 := by
    rw [Std.HashSet.size_insert, if_neg hnew]
  have hentered : w.visited.insert id = w'.visited.insert id := by rw [hvisited]
  obtain ⟨hsame, hfaultless⟩ := safe_readPage hsupported id
  have hread : (visitor file trace onLeaf).readPage id = liftM (file.readPage id) :=
    congrArg liftM hsame
  have hread' : (Visitor.ofFile file trace onLeaf').readPage id = liftM (file.readPage id) := rfl
  rw [Visitor.visit_read hread (hvisited ▸ hnew), Visitor.visit_read hread' hnew]
  have hpages : 0 < file.pageSize := lt_of_lt_of_le (by decide) hsupported.bounds.1
  rcases hpage : file.readPage id with e | page
  · refine .error (h.expected e (hfaultless e hpage)) ⟨⟨hentered, hlog, h.mono hstate ?_⟩, ?_⟩
    · exact Nat.mul_le_mul_left pageLimit (hmore ▸ Nat.le_succ _)
    · exact unseen_mono fun p hp => Std.HashSet.mem_insert.mpr (.inr hp)
  · have hless : unseen file (w'.visited.insert id) < unseen file w'.visited :=
      unseen_insert hv (File.le_pageCount hpages hpage) hnew
    have hbelow := hless.trans_le hseen
    have hopened : Opened T (w.on trace.pages depth id page.header)
        (w'.on trace.pages depth id page.header) := by
      refine ⟨hentered, w'.visited.size, hmore ▸ Nat.lt_succ_self _, ?_, hstate⟩
      unfold Walker.on
      rw [hlog]
    have hsupported' : page.layout.Supported := layout_of_readPage hpage ▸ hsupported
    refine (agree_finish h hsupported' hdepth (fun child => (hd child).mono hbelow.le)
      (hrest _ hbelow)
      hopened le_rfl).mono (fun _ he => he) ?_
    exact fun _ _ hu => ⟨hu.1, hu.2.trans hless.le⟩

/-- A chain with room for the unseen pages does not come to its end, by induction on these. -/
theorem matches_chain (h : Matched P T onLeaf onLeaf') (hsupported : file.layout.Supported)
    {depth : Nat} (hdepth : depth ≤ maxDepth)
    (hd : ∀ id, Matches file P T n (descend (depth + 1) id) (descend' id)) {steps : Nat}
    (hsteps : n < steps) (id : PageId) :
    Matches file P T n (walkChain (visitor file trace onLeaf) descend depth steps id)
      ((Visitor.ofFile file trace onLeaf').chainWithin Visitor.endless descend' depth steps
        id) := by
  induction n using Nat.strong_induction_on generalizing steps id with
  | _ n ih =>
    obtain ⟨steps, rfl⟩ : ∃ k, steps = k + 1 := ⟨steps - 1, by omega⟩
    rw [walkChain, Visitor.chainWithin]
    split
    · rename_i hv
      refine matches_page h hsupported hdepth hv hd fun m hm next => ?_
      exact ih m hm (fun child => (hd child).mono hm.le) (by omega) next
    · exact .pure ()

/-- Chains do not nest deeper than the levels that a tree may have, and one more. -/
theorem matches_tree (h : Matched P T onLeaf onLeaf') (hsupported : file.layout.Supported)
    (hn : n < Tree.maxChain) {nest depth : Nat} (hnest : maxDepth + 2 ≤ nest + depth)
    (hdepth : depth ≤ maxDepth + 1) (start : PageId) :
    Matches file P T n (walkFrom (visitor file trace onLeaf) nest depth start)
      ((Visitor.ofFile file trace onLeaf').walkWithin Visitor.endless Tree.maxChain nest depth
        start) := by
  induction nest generalizing depth start with
  | zero => omega
  | succ nest ih =>
    rw [walkFrom, Visitor.walkWithin]
    split
    · exact .throw (h.expected _ trivial)
    · rename_i hlevel
      have hlevel := not_lt.mp hlevel
      exact matches_chain h hsupported hlevel
        (fun child => ih (by omega) (Nat.succ_le_succ hlevel) child) hn start

/-- Whole walks match, from a fresh walker on. -/
theorem agree_survey (h : Matched P T onLeaf onLeaf') (hsupported : file.layout.Supported)
    (trace : Trace.Switches) (roots : List PageId) {j : Journal σ} {j' : Journal τ}
    (hj : Noted T 0 j j') :
    Agree P (Noted T (pageLimit * 2 ^ 32)) (survey (visitor file trace onLeaf) roots j)
      ((Visitor.ofFile file trace onLeaf').survey roots j') := by
  have hroom : min file.pageCount 0xFFFFFFFE < Tree.maxChain := by
    unfold Tree.maxChain
    omega
  have hwalk : Matches file P T (min file.pageCount 0xFFFFFFFE)
      (roots.forM (walk (visitor file trace onLeaf)))
      ((Visitor.ofFile file trace onLeaf').walkAll roots) := by
    refine .forM fun root _ => ?_
    rw [walk, Visitor.walk_eq]
    have henough : maxDepth + 2 ≤ maxDepth + 2 + 0 := le_rfl
    exact matches_tree h hsupported hroom henough (Nat.zero_le _) root
  have hagree := hwalk ⟨{}, j⟩ ⟨{}, j'⟩ ⟨rfl, by simpa using hj⟩ (unseen_le _)
  unfold survey Visitor.survey
  generalize roots.forM (walk (visitor file trace onLeaf)) ⟨{}, j⟩ = r at hagree ⊢
  generalize (Visitor.ofFile file trace onLeaf').walkAll roots ⟨{}, j'⟩ = r' at hagree ⊢
  have hend : ∀ {u : Walker σ} {u' : Walker τ}, Linked T u u' →
      Noted T (pageLimit * 2 ^ 32) u.journal u'.journal := fun {u u'} hu =>
    ⟨hu.2.1, h.mono hu.2.2 (Nat.mul_le_mul_left pageLimit (size_le u'.visited))⟩
  rcases hagree with @⟨_, u, u', hu⟩ | @⟨e, u, u', he, hu⟩
  · change Agree P _ (.ok u.visited.size u.journal) (.ok u'.visited.size u'.journal)
    rw [hu.1.1]
    exact .ok (hend hu.1)
  · exact .error he (hend hu.1)

end

end Ese.Machine
