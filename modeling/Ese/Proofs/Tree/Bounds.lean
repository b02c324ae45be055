import Mathlib
import Ese.Proofs.File.Bounds
import Ese.Proofs.Tree.Footprint
/-!
Bounds that no walk comes to. Each page of a chain is a page of the file that was not visited
before, or it ends the walk; so the pages not yet visited bound what is left of every chain, and a
walk with room for that many pages never gets to the end of its room. What would happen there is
left open, so that two walks with different ideas of it are the same walk.
-/

namespace Ese.Tree

variable {σ α β : Type} {file : File}

def unseen (file : File) (visited : Std.HashSet PageId) : Nat :=
  ((Finset.Icc 1 (min file.pageCount 0xFFFFFFFE)).filter
    fun n => (⟨UInt32.ofNat n⟩ : PageId) ∉ visited).card

theorem unseen_le (visited : Std.HashSet PageId) :
    unseen file visited ≤ min file.pageCount 0xFFFFFFFE := by
  refine (Finset.card_filter_le _ _).trans ?_
  rw [Nat.card_Icc]
  omega

theorem unseen_mono {visited more : Std.HashSet PageId} (h : ∀ id ∈ visited, id ∈ more) :
    unseen file more ≤ unseen file visited := by
  refine Finset.card_le_card fun n hn => ?_
  obtain ⟨hrange, hnew⟩ := Finset.mem_filter.mp hn
  exact Finset.mem_filter.mpr ⟨hrange, mt (h _) hnew⟩

theorem unseen_insert {visited : Std.HashSet PageId} {id : PageId} (hv : id.isValid)
    (hcount : id.value.toNat ≤ file.pageCount) (hnew : id ∉ visited) :
    unseen file (visited.insert id) < unseen file visited := by
  have hid : (⟨UInt32.ofNat id.value.toNat⟩ : PageId) = id := congrArg PageId.mk UInt32.ofNat_toNat
  refine Finset.card_lt_card (Finset.ssubset_iff_of_subset ?_ |>.mpr ⟨id.value.toNat, ?_, ?_⟩)
  · intro n hn
    obtain ⟨hrange, hn⟩ := Finset.mem_filter.mp hn
    exact Finset.mem_filter.mpr
      ⟨hrange, fun hold => hn (Std.HashSet.mem_insert.mpr (.inr hold))⟩
  · have hfirst := PageId.one_le_of_isValid hv
    have hlast := PageId.lt_of_isValid hv
    exact Finset.mem_filter.mpr ⟨Finset.mem_Icc.mpr ⟨hfirst, by omega⟩, by rwa [hid]⟩
  · intro hn
    refine (Finset.mem_filter.mp hn).2 ?_
    rw [hid]
    exact Std.HashSet.mem_insert_self

/-- With at most `n` unseen pages the two are the same, and none comes back. -/
def SameUpTo (file : File) (n : Nat) (a b : Walk σ α) : Prop :=
  ∀ w, unseen file w.visited ≤ n →
    b w = a w ∧ unseen file (visitedAfter (a w)) ≤ unseen file w.visited

namespace SameUpTo

variable {n : Nat} {v : Visitor σ}

theorem mono {a b : Walk σ α} {m : Nat} (h : SameUpTo file n a b) (hm : m ≤ n) :
    SameUpTo file m a b := fun w hw => h w (hw.trans hm)

theorem refl {a : Walk σ α} (h : ∀ w, visitedAfter (a w) = w.visited) : SameUpTo file n a a := by
  intro w _
  rw [h w]
  exact ⟨rfl, le_rfl⟩

theorem bind {a b : Walk σ α} {f g : α → Walk σ β} (h : SameUpTo file n a b)
    (hf : ∀ x, SameUpTo file n (f x) (g x)) : SameUpTo file n (a >>= f) (b >>= g) := by
  intro w hw
  obtain ⟨hsame, hseen⟩ := h w hw
  rw [bind_apply, bind_apply, hsame]
  rcases ha : a w with ⟨x, w'⟩ | ⟨e, w'⟩
  · rw [ha] at hseen
    have hseen : unseen file w'.visited ≤ unseen file w.visited := hseen
    obtain ⟨hrest, hrestSeen⟩ := hf x w' (hseen.trans hw)
    exact ⟨hrest, hrestSeen.trans hseen⟩
  · rw [ha] at hseen
    exact ⟨rfl, hseen⟩

/-- On a page that was not visited before there are fewer pages left. -/
theorem visit (hread : ∀ id, v.readPage id = liftM (file.readPage id)) (hsize : 0 < file.pageSize)
    (depth : Nat) {id : PageId} (hv : id.isValid) {body body' : Page → Walk σ Unit}
    (hbody : ∀ m < n, ∀ page, SameUpTo file m (body page) (body' page)) :
    SameUpTo file n (v.visit depth id body) (v.visit depth id body') := by
  intro w hw
  by_cases hnew : id ∈ w.visited
  · rw [Visitor.visit_old hnew, Visitor.visit_old hnew]
    exact ⟨rfl, le_rfl⟩
  rw [Visitor.visit_read (hread id) hnew, Visitor.visit_read (hread id) hnew]
  rcases hpage : file.readPage id with e | page
  · refine ⟨rfl, unseen_mono fun p hp => ?_⟩
    exact Std.HashSet.mem_insert.mpr (.inr hp)
  · have hless :
        unseen file (w.on v.logPages depth id page.header).visited < unseen file w.visited :=
      unseen_insert hv (File.le_pageCount hsize hpage) hnew
    obtain ⟨hsame, hseen⟩ :=
      hbody _ (hless.trans_le hw) page (w.on v.logPages depth id page.header) le_rfl
    exact ⟨hsame, hseen.trans hless.le⟩

theorem parts (hread : ∀ id, v.readPage id = liftM (file.readPage id))
    (hsize : 0 < file.pageSize) : Parts v v fun _ a b => SameUpTo file n a b where
  pure _ := refl fun _ => rfl
  bind := bind
  values page := refl fun _ => by cases page.values <;> rfl
  branch value := refl fun _ => by cases BranchEntry.parse value <;> rfl
  deep _ := refl fun _ => rfl
  leaf l := by
    refine refl fun w => ?_
    unfold Walk.ofRun
    cases v.onLeaf l w.journal <;> rfl
  visit depth id := fun hv hbody =>
    visit hread hsize depth hv fun m hm page => (hbody page).mono hm.le

variable {stuck stuck' descend descend' : PageId → Walk σ Unit}

/-- Chains with room for the unseen pages, by induction on these. -/
theorem chainWithin (hread : ∀ id, v.readPage id = liftM (file.readPage id))
    (hsize : 0 < file.pageSize) {steps steps' : Nat} (hsteps : n < steps) (hsteps' : n < steps')
    (hd : ∀ id, SameUpTo file n (descend id) (descend' id)) (depth : Nat) (id : PageId) :
    SameUpTo file n (v.chainWithin stuck descend depth steps id)
      (v.chainWithin stuck' descend' depth steps' id) := by
  induction n using Nat.strong_induction_on generalizing steps steps' id with
  | _ n ih =>
    obtain ⟨steps, rfl⟩ : ∃ k, steps = k + 1 := ⟨steps - 1, by omega⟩
    obtain ⟨steps', rfl⟩ : ∃ k, steps' = k + 1 := ⟨steps' - 1, by omega⟩
    rw [Visitor.chainWithin, Visitor.chainWithin]
    split
    · rename_i hv
      refine visit hread hsize depth hv fun m hm page => ?_
      refine (parts hread hsize).finish (fun child => (hd child).mono hm.le) (fun next => ?_) page
      exact ih m hm (by omega) (by omega) (fun child => (hd child).mono hm.le) next
    · exact refl fun _ => rfl

/-- Chains do not nest deeper than the levels that a tree may have, and one more. -/
theorem walkWithin (hread : ∀ id, v.readPage id = liftM (file.readPage id))
    (hsize : 0 < file.pageSize) {steps steps' : Nat} (hsteps : n < steps) (hsteps' : n < steps')
    {nest nest' depth : Nat} (hnest : maxDepth + 2 ≤ nest + depth)
    (hnest' : maxDepth + 2 ≤ nest' + depth) (hdepth : depth ≤ maxDepth + 1) (start : PageId) :
    SameUpTo file n (v.walkWithin stuck steps nest depth start)
      (v.walkWithin stuck' steps' nest' depth start) := by
  induction nest generalizing nest' depth start with
  | zero => omega
  | succ nest ih =>
    obtain ⟨nest', rfl⟩ : ∃ k, nest' = k + 1 := ⟨nest' - 1, by omega⟩
    rw [Visitor.walkWithin, Visitor.walkWithin]
    split
    · exact refl fun _ => rfl
    · exact chainWithin hread hsize hsteps hsteps'
        (fun child => ih (by omega) (by omega) (by omega) child) depth start

end SameUpTo

/-- A walk of a file with room for its pages is the walk, whatever were to happen beyond. -/
theorem walkWithin_eq_walk (hsize : 0 < file.pageSize) {v : Visitor σ}
    (hread : ∀ id, v.readPage id = liftM (file.readPage id)) (stuck : PageId → Walk σ Unit)
    {steps nest : Nat} (hsteps : file.pageCount < steps) (hnest : maxDepth + 2 ≤ nest)
    (root : PageId) : v.walkWithin stuck steps nest 0 root = v.walk root := by
  have hroom : min file.pageCount 0xFFFFFFFE < maxChain := by
    unfold maxChain
    omega
  funext w
  rw [Visitor.walk_eq]
  have henough : maxDepth + 2 ≤ maxDepth + 2 + 0 := le_rfl
  have hsame : SameUpTo file (min file.pageCount 0xFFFFFFFE)
      (v.walkWithin Visitor.endless maxChain (maxDepth + 2) 0 root)
      (v.walkWithin stuck steps nest 0 root) :=
    SameUpTo.walkWithin hread hsize hroom (lt_of_le_of_lt (min_le_left ..) hsteps) henough hnest
      (Nat.zero_le _) root
  exact (hsame w (unseen_le w.visited)).1

end Ese.Tree
