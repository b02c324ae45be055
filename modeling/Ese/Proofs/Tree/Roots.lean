import Mathlib
import Ese.Proofs.Tree.Harvest
import Ese.Proofs.Tree.Seen
/-!
Walks of several trees with one walker. Their trails follow one another, and a tree that starts on a
page of the trees before it adds nothing.
-/

namespace Ese.Tree

variable {σ : Type}

def trails (read : Reader) (roots : List PageId) : Trail Unit := roots.forM (trail read)

theorem Follows.walkAll {v : Visitor σ} {read : Reader}
    (hread : ∀ id, v.readPage id = liftM (read id))
    (roots : List PageId) : Follows v (v.walkAll roots) (trails read roots) :=
  .forM (.walk hread) roots

theorem explored_trails {read : Reader} {roots : List PageId} {visited : Std.HashSet PageId}
    {steps : List Step} (h : trails read roots visited = (steps, .ok ())) :
    Explored read visited roots steps := by
  induction roots generalizing visited steps with
  | nil =>
    cases h
    exact .nil
  | cons root roots ih =>
    obtain ⟨first, _, rest, hfirst, hrest, rfl⟩ := Trail.of_bind_ok h
    exact (explores_trail read _ _ _ hfirst).append (ih hrest)

/-- The leaf entries that walks of these trees hand over, and how they end. -/
def harvestAll (file : File) (roots : List PageId) : List Leaf × Except Error Unit :=
  handedOver ((Visitor.ofFile file {} fun l => Run.ofCallback (keepLeaf l)).walkAll roots)

theorem harvestAll_eq (file : File) (roots : List PageId) :
    harvestAll file roots =
      (leaves (trails file.readPage roots {}).1, (trails file.readPage roots {}).2) :=
  handedOver_eq (Follows.walkAll (fun _ => rfl) roots)

theorem harvestAll_singleton (file : File) (root : PageId) :
    harvestAll file [root] = harvest file root := by
  rw [harvestAll_eq, harvest_eq]
  rcases htrail : trail file.readPage root {} with ⟨steps, e | u⟩
  · have htrails : trails file.readPage [root] {} = (steps, .error e) :=
      Trail.bind_of_error htrail
    rw [htrails]
  · have htrails : trails file.readPage [root] {} = (steps ++ [], .ok ()) :=
      Trail.bind_of_ok htrail
    rw [htrails, List.append_nil]

/-- The entries are those of the pages that can be reached, page by page, each page once. -/
theorem harvestAll_pages {file : File} {roots : List PageId} {ls : List Leaf}
    (h : harvestAll file roots = (ls, .ok ())) :
    ∃ pages : List PageId, pages.Nodup ∧
      (∀ id, id ∈ pages ↔ Reachable file.readPage roots id) ∧
      ls = pages.flatMap (leafEntries file.readPage) := by
  rw [harvestAll_eq] at h
  rcases htrails : trails file.readPage roots {} with ⟨steps, answer⟩
  rw [htrails] at h
  obtain ⟨rfl, rfl⟩ := Prod.mk.inj h
  have hexplored := explored_trails htrails
  exact ⟨entered steps, hexplored.nodup, fun id => hexplored.mem_entered_iff, hexplored.delivered⟩

/-- A callback takes what walks of the trees hand over, and then the walks end. -/
theorem onState_surveyAll {file : File} {trace : Trace.Switches} {onLeaf : Leaf → Run σ Unit}
    {f : Leaf → Callback σ Unit} (hv : (Visitor.ofFile file trace onLeaf).Calls f)
    (roots : List PageId) (j : Journal σ) :
    Run.onState (((Visitor.ofFile file trace onLeaf).survey roots >>= fun _ => pure ()) j) =
      ((harvestAll file roots).1.forM f >>= fun _ => conclude (harvestAll file roots).2)
        j.state := by
  have hwalk := Follows.onState hv (Follows.walkAll (fun _ => rfl) roots)
    { visited := {}, journal := j }
  rw [harvestAll_eq]
  refine Eq.trans ?_ hwalk
  rw [bind_apply, Visitor.survey]
  cases (Visitor.ofFile file trace onLeaf).walkAll roots { visited := {}, journal := j } <;> rfl

theorem walkAll_append (v : Visitor σ) (front back : List PageId) :
    v.walkAll (front ++ back) = (v.walkAll front >>= fun _ => v.walkAll back) :=
  List.forM_append

/-- A tree at a page that was reached before is passed over. -/
theorem walkAll_insert {v : Visitor σ} {read : Reader}
    (hread : ∀ id, v.readPage id = liftM (read id))
    {front back : List PageId} {root : PageId} (hroot : Reachable read front root) {w w' : Walker σ}
    (hstart : w.visited = {}) (hfront : v.walkAll front w = .ok () w') :
    v.walkAll (front ++ root :: back) w = v.walkAll back (w'.tell (.alreadyVisited root)) := by
  obtain ⟨steps, htrails, hreplay⟩ := Follows.of_ok (Follows.walkAll hread front) hfront
  rw [hstart] at htrails
  -- walks that succeed have entered all that can be reached from their roots
  have hvisited : root ∈ w'.visited := by
    rw [visited_replay hreplay, mem_marked]
    exact .inr ((explored_trails htrails).mem_entered_iff.mpr hroot)
  have hskip := walkFrom_skip v maxDepth fun _ => hvisited
  rw [Walker.pass, if_pos hroot.isValid] at hskip
  rw [walkAll_append, bind_apply, hfront]
  change (root :: back).forM v.walk w' = _
  rw [forM_cons_apply, Visitor.walk, hskip]
  rfl

def Journal.behind (told : Array Trace.Event) (j : Journal σ) : Journal σ where
  log := told ++ j.log
  state := j.state

/-- What was logged before makes no difference to the visitor. -/
def Visitor.Unaware (v : Visitor σ) : Prop := ∀ told, v.SeenAs (Journal.behind told) v

theorem Visitor.Unaware.walkAll {v : Visitor σ} (h : v.Unaware) (roots : List PageId)
    (w : Walker σ) :
    v.walkAll roots w = mapState (Walker.through (Journal.behind w.journal.log))
      (v.walkAll roots ⟨w.visited, ⟨#[], w.journal.state⟩⟩) := by
  refine Seen.answer ((h w.journal.log).walkAll roots) ?_
  simp [Walker.through, Journal.behind]

/-- A tree at a page that was reached before makes no difference, but that the page is logged when
it is passed over. -/
theorem survey_insert {v : Visitor σ} {read : Reader}
    (hread : ∀ id, v.readPage id = liftM (read id))
    (hv : v.Unaware) {front back : List PageId} {root : PageId} (hroot : Reachable read front root)
    {j j' : Journal σ} {n : Nat} (h : v.survey (front ++ back) j = .ok n j') :
    ∃ told more, j'.log = told ++ more ∧ v.survey (front ++ root :: back) j =
      .ok n ⟨told.push (.alreadyVisited root) ++ more, j'.state⟩ := by
  unfold Visitor.survey at h ⊢
  rw [walkAll_append, bind_apply] at h
  rcases hfront : v.walkAll front ⟨{}, j⟩ with ⟨u, w⟩ | ⟨e, w⟩
  · -- what is behind the trees in front is walked from the same pages, with another log before it
    have hback := hv.walkAll back w
    have hbehind : v.walkAll back (w.tell (.alreadyVisited root)) =
        mapState (Walker.through (Journal.behind (w.journal.log.push (.alreadyVisited root))))
          (v.walkAll back ⟨w.visited, ⟨#[], w.journal.state⟩⟩) :=
      hv.walkAll back (w.tell (.alreadyVisited root))
    rw [hfront] at h
    dsimp only at h
    rw [hback] at h
    rw [walkAll_insert hread hroot rfl hfront, hbehind]
    generalize v.walkAll back ⟨w.visited, ⟨#[], w.journal.state⟩⟩ = r at h ⊢
    rcases r with ⟨u', w'⟩ | ⟨e, w'⟩
    · cases h
      exact ⟨w.journal.log, w'.journal.log, rfl, rfl⟩
    · cases h
  · rw [hfront] at h
    cases h

end Ese.Tree
