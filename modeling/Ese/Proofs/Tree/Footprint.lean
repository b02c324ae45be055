import Mathlib
import Ese.Proofs.Tree.Related
/-!
Footprints. The pages that a walk visits are all that it can tell a file by: with another reader
that agrees on them it does the same, whatever the callback does and however the walk ends. They are
known only when the walk is over, so this needs that no page leaves the visited ones again.
-/

namespace Ese.Tree

variable {σ α β : Type}

/-- The pages that have been visited when a part of a walk is over, however it ended. -/
def visitedAfter : EStateM.Result Error (Walker σ) α → Std.HashSet PageId
  | .ok _ w => w.visited
  | .error _ w => w.visited

/-- The pages that walks of these trees visit, with a fresh walker. -/
def Visitor.footprint (v : Visitor σ) (roots : List PageId) (j : Journal σ) :
    Std.HashSet PageId :=
  visitedAfter (v.walkAll roots { visited := {}, journal := j })

/-- The second part does what the first does wherever the readers agree on what the first visits. -/
structure Echoes (read read' : Reader) (a b : Walk σ α) : Prop where
  grows : ∀ w id, id ∈ w.visited → id ∈ visitedAfter (a w)
  valid : ∀ w id, id ∈ visitedAfter (a w) → id ∈ w.visited ∨ id.isValid
  same : ∀ w, (∀ id ∈ visitedAfter (a w), read' id = read id) → b w = a w

namespace Echoes

variable {read read' : Reader}

theorem refl {a : Walk σ α} (h : ∀ w, visitedAfter (a w) = w.visited) : Echoes read read' a a where
  grows w id hid := by rwa [h w]
  valid w id hid := .inl (by rwa [h w] at hid)
  same _ _ := rfl

theorem bind {a b : Walk σ α} {f g : α → Walk σ β} (h : Echoes read read' a b)
    (hf : ∀ x, Echoes read read' (f x) (g x)) : Echoes read read' (a >>= f) (b >>= g) := by
  constructor
  · intro w id hid
    have hfirst := h.grows w id hid
    rw [bind_apply]
    rcases ha : a w with ⟨x, w'⟩ | ⟨e, w'⟩
    · rw [ha] at hfirst
      exact (hf x).grows w' id hfirst
    · rw [ha] at hfirst
      exact hfirst
  · intro w id hid
    have hfirst := h.valid w id
    rw [bind_apply] at hid
    rcases ha : a w with ⟨x, w'⟩ | ⟨e, w'⟩
    · rw [ha] at hfirst hid
      rcases (hf x).valid w' id hid with hid | hid
      · exact hfirst hid
      · exact .inr hid
    · rw [ha] at hfirst hid
      exact hfirst hid
  · intro w hagree
    rw [bind_apply] at hagree
    rw [bind_apply, bind_apply]
    rcases ha : a w with ⟨x, w'⟩ | ⟨e, w'⟩
    · rw [ha] at hagree
      have hb : b w = a w := h.same w fun id hid =>
        hagree id ((hf x).grows w' id (by rwa [ha] at hid))
      rw [hb, ha]
      exact (hf x).same w' hagree
    · rw [ha] at hagree
      have hb : b w = a w := h.same w fun id hid => hagree id (by rwa [ha] at hid)
      rw [hb, ha]

variable {v v' : Visitor σ}

section

variable {depth : Nat} {id p : PageId} {body : Page → Walk σ Unit} {w : Walker σ}

/-- A page that is entered stays visited, as what was visited before it. -/
theorem mem_visitedAfter_visit (hread : v.readPage id = liftM (read id)) (hnew : id ∉ w.visited)
    (hbody : ∀ page w, p ∈ w.visited → p ∈ visitedAfter (body page w))
    (hp : p ∈ w.visited.insert id) : p ∈ visitedAfter (v.visit depth id body w) := by
  rw [Visitor.visit_read hread hnew]
  rcases read id with e | page
  · exact hp
  · exact hbody page _ hp

theorem of_mem_visitedAfter_visit (hread : v.readPage id = liftM (read id)) (hnew : id ∉ w.visited)
    (hbody : ∀ page w, p ∈ visitedAfter (body page w) → p ∈ w.visited ∨ p.isValid)
    (hp : p ∈ visitedAfter (v.visit depth id body w)) : p ∈ w.visited.insert id ∨ p.isValid := by
  rw [Visitor.visit_read hread hnew] at hp
  rcases hpage : read id with e | page
  · rw [hpage] at hp
    exact .inl hp
  · rw [hpage] at hp
    exact hbody page _ hp

end

theorem visit (hread : ∀ id, v.readPage id = liftM (read id))
    (hread' : ∀ id, v'.readPage id = liftM (read' id)) (hlog : v'.logPages = v.logPages)
    (depth : Nat) {id : PageId} (hv : id.isValid) {body body' : Page → Walk σ Unit}
    (hbody : ∀ page, Echoes read read' (body page) (body' page)) :
    Echoes read read' (v.visit depth id body) (v'.visit depth id body') := by
  have hgrows : ∀ p page w, p ∈ w.visited → p ∈ visitedAfter (body page w) :=
    fun p page w hp => (hbody page).grows w p hp
  constructor
  · intro w p hp
    by_cases hnew : id ∈ w.visited
    · rw [Visitor.visit_old hnew]
      exact hp
    · exact mem_visitedAfter_visit (hread id) hnew (hgrows p) (Std.HashSet.mem_insert.mpr (.inr hp))
  · intro w p hp
    by_cases hnew : id ∈ w.visited
    · rw [Visitor.visit_old hnew] at hp
      exact .inl hp
    · rcases of_mem_visitedAfter_visit (hread id) hnew (fun page w => (hbody page).valid w p) hp
        with hp | hp
      · rcases Std.HashSet.mem_insert.mp hp with hp | hp
        · exact .inr (eq_of_beq hp ▸ hv)
        · exact .inl hp
      · exact .inr hp
  · intro w hagree
    by_cases hnew : id ∈ w.visited
    · rw [Visitor.visit_old hnew, Visitor.visit_old hnew]
    -- the page itself is visited whether it can be read or not
    have hid : read' id = read id := hagree id
      (mem_visitedAfter_visit (hread id) hnew (hgrows id) Std.HashSet.mem_insert_self)
    rw [Visitor.visit_read (hread id) hnew] at hagree
    rw [Visitor.visit_read (hread id) hnew, Visitor.visit_read (hread' id) hnew, hlog, hid]
    rcases hpage : read id with e | page
    · rfl
    · rw [hpage] at hagree
      exact (hbody page).same _ hagree

theorem parts (hread : ∀ id, v.readPage id = liftM (read id))
    (hread' : ∀ id, v'.readPage id = liftM (read' id)) (hlog : v'.logPages = v.logPages)
    (hleaf : v'.onLeaf = v.onLeaf) : Parts v v' fun _ a b => Echoes read read' a b where
  pure _ := refl fun _ => rfl
  bind := bind
  values page := refl fun _ => by cases page.values <;> rfl
  branch value := refl fun _ => by cases BranchEntry.parse value <;> rfl
  deep _ := refl fun _ => rfl
  leaf l := by
    rw [hleaf]
    refine refl fun w => ?_
    unfold Walk.ofRun
    cases v.onLeaf l w.journal <;> rfl
  visit depth id := fun hv hbody => visit hread hread' hlog depth hv hbody

/-- Walks over two files do what the files agree on. -/
theorem walkAll (file file' : File) (trace : Trace.Switches) (onLeaf : Leaf → Run σ Unit)
    (roots : List PageId) :
    Echoes file.readPage file'.readPage ((Visitor.ofFile file trace onLeaf).walkAll roots)
      ((Visitor.ofFile file' trace onLeaf).walkAll roots) := by
  have hparts : Parts (Visitor.ofFile file trace onLeaf) (Visitor.ofFile file' trace onLeaf)
      fun _ a b => Echoes file.readPage file'.readPage a b :=
    parts (fun _ => rfl) (fun _ => rfl) rfl rfl
  have hendless : ∀ id : PageId, Echoes file.readPage file'.readPage
      (Visitor.endless id : Walk σ Unit) (Visitor.endless id) := fun _ => refl fun _ => rfl
  exact hparts.respects.walkAll hendless roots

end Echoes

section

variable {file file' : File} {trace : Trace.Switches} {onLeaf : Leaf → Run σ Unit}
  {roots : List PageId} {j : Journal σ}

theorem isValid_of_mem_footprint {id : PageId}
    (h : id ∈ (Visitor.ofFile file trace onLeaf).footprint roots j) : id.isValid := by
  exact ((Echoes.walkAll file file trace onLeaf roots).valid _ id h).resolve_left
    Std.HashSet.not_mem_empty

/-- With a file that reads the same on the footprint, the walks are the same. -/
theorem survey_of_same
    (h : ∀ id ∈ (Visitor.ofFile file trace onLeaf).footprint roots j,
      file'.readPage id = file.readPage id) :
    (Visitor.ofFile file' trace onLeaf).survey roots j =
      (Visitor.ofFile file trace onLeaf).survey roots j := by
  unfold Visitor.survey
  rw [(Echoes.walkAll file file' trace onLeaf roots).same _ h]

end

end Ese.Tree
