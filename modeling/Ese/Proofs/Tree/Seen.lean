import Mathlib
import Ese.Proofs.Tree.Related
/-!
Computations that do the same up to what a map makes of the state. The map may drop notes that were
taken beside the state, or lines of the log; what is asked of a page is kept, so if each part of a
visitor is seen as the like part of another, whole walks are.
-/

namespace Ese

open Ese.Tree

variable {σ τ α β γ : Type}

def mapState (p : σ → τ) : EStateM.Result Error σ α → EStateM.Result Error τ α
  | .ok a s => .ok a (p s)
  | .error e s => .error e (p s)

/-- Through the map, the first computation is the second: they answer alike, and end alike. -/
def Seen (p : σ → τ) (a : Callback σ α) (b : Callback τ α) : Prop := ∀ s, mapState p (a s) = b (p s)

namespace Seen

variable {p : σ → τ}

theorem pure (x : α) : Seen p (pure x) (pure x) := fun _ => rfl

theorem refl (a : Callback σ α) : Seen id a a := by
  intro s
  change mapState id (a s) = a s
  cases a s <;> rfl

theorem throw (e : Error) : Seen p (throw e : Callback σ α) (throw e) := fun _ => rfl

theorem lift (x : Except DecodeError α) : Seen p (liftM x : Callback σ α) (liftM x) := by
  intro s
  cases x <;> rfl

theorem bind {a : Callback σ α} {b : Callback τ α} {f : α → Callback σ β} {g : α → Callback τ β}
    (h : Seen p a b) (hf : ∀ x, Seen p (f x) (g x)) : Seen p (a >>= f) (b >>= g) := by
  intro s
  rw [bind_apply, bind_apply, ← h s]
  rcases a s with ⟨x, s'⟩ | ⟨e, s'⟩
  · exact hf x s'
  · rfl

theorem forM {f : γ → Callback σ Unit} {g : γ → Callback τ Unit} (h : ∀ x, Seen p (f x) (g x))
    (xs : List γ) : Seen p (xs.forM f) (xs.forM g) := by
  induction xs with
  | nil => exact pure ()
  | cons x xs ih => exact bind (h x) fun _ => ih

theorem answer {a : Callback σ α} {b : Callback τ α} (h : Seen p a b) {s : σ} {t : τ}
    (hs : p s = t) :
    b t = mapState p (a s) := by
  rw [← hs]
  exact (h s).symm

end Seen

end Ese

namespace Ese.Tree

variable {σ τ α : Type}

def Walker.through (p : Journal σ → Journal τ) (w : Walker σ) : Walker τ := ⟨w.visited, p w.journal⟩

/-- Each part of the first visitor is seen as that of the second. -/
structure Visitor.SeenAs (p : Journal σ → Journal τ) (v : Visitor σ) (v' : Visitor τ) : Prop where
  read : ∀ id, Seen p (v.readPage id) (v'.readPage id)
  visiting : ∀ depth id header, Seen p (Run.logIf v.logPages (visiting depth id header))
    (Run.logIf v'.logPages (visiting depth id header))
  again : ∀ id, Seen p (Run.log (.alreadyVisited id)) (Run.log (.alreadyVisited id))
  leaf : ∀ l, Seen p (v.onLeaf l) (v'.onLeaf l)

theorem seen_ofRun {p : Journal σ → Journal τ} {r : Run σ α} {r' : Run τ α} (h : Seen p r r') :
    Seen (Walker.through p) (Walk.ofRun r) (Walk.ofRun r') := by
  intro w
  have hj := h w.journal
  unfold Walk.ofRun Walker.through
  dsimp only
  rw [← hj]
  cases r w.journal <;> rfl

namespace Visitor.SeenAs

variable {p : Journal σ → Journal τ} {v : Visitor σ} {v' : Visitor τ} (h : SeenAs p v v')

include h

theorem visit (depth : Nat) (id : PageId) {body : Page → Walk σ Unit} {body' : Page → Walk τ Unit}
    (hbody : ∀ page, Seen (Walker.through p) (body page) (body' page)) :
    Seen (Walker.through p) (v.visit depth id body) (v'.visit depth id body') := by
  intro w
  by_cases hnew : id ∈ w.visited
  · rw [Visitor.visit_old hnew, Visitor.visit_old (show id ∈ (w.through p).visited from hnew)]
    exact seen_ofRun (h.again id) w
  · rw [Visitor.visit_new hnew, Visitor.visit_new (show id ∉ (w.through p).visited from hnew)]
    exact (seen_ofRun (h.read id)).bind
      (fun page => (seen_ofRun (h.visiting depth id page.header)).bind fun _ => hbody page)
      { w with visited := w.visited.insert id }

theorem parts : Parts v v' fun _ a b => Seen (Walker.through p) a b where
  pure := Seen.pure
  bind := Seen.bind
  values page := Seen.lift page.values
  branch value := Seen.lift (BranchEntry.parse value)
  deep _ := Seen.throw _
  leaf l := seen_ofRun (h.leaf l)
  visit depth id := fun _ hbody => h.visit depth id hbody

theorem walk (root : PageId) : Seen (Walker.through p) (v.walk root) (v'.walk root) :=
  h.parts.respects.walk (fun _ => Seen.throw _) root

theorem walkAll (roots : List PageId) :
    Seen (Walker.through p) (v.walkAll roots) (v'.walkAll roots) :=
  Seen.forM h.walk roots

theorem survey (roots : List PageId) : Seen p (v.survey roots) (v'.survey roots) := by
  intro j
  have hall := h.walkAll roots ⟨{}, j⟩
  unfold Visitor.survey
  rw [show (⟨{}, p j⟩ : Walker τ) = Walker.through p ⟨{}, j⟩ from rfl, ← hall]
  rcases v.walkAll roots ⟨{}, j⟩ with ⟨u, w⟩ | ⟨e, w⟩ <;> rfl

end Visitor.SeenAs

end Ese.Tree
