import Mathlib
import Ese.Proofs.Tree.Seen
/-!
Walks under watch: the pages that are asked for and the leaf entries that are handed over are noted
beside the state of the callback. Without the notes a watched walk is the walk itself.
-/

namespace Ese.Tree

variable {σ α : Type}

/-- A state with what was asked for and handed over so far, in order. -/
structure Watched (σ : Type) where
  reads : List PageId := []
  handed : List Leaf := []
  state : σ

namespace Watched

def read (id : PageId) (n : Watched σ) : Watched σ := { n with reads := n.reads ++ [id] }

def hand (l : Leaf) (n : Watched σ) : Watched σ := { n with handed := n.handed ++ [l] }

end Watched

def Run.watched (note : Watched σ → Watched σ) (r : Run σ α) : Run (Watched σ) α := fun j =>
  match r { log := j.log, state := j.state.state } with
  | .ok a j' => .ok a { log := j'.log, state := { note j.state with state := j'.state } }
  | .error e j' => .error e { log := j'.log, state := { note j.state with state := j'.state } }

def Visitor.watched (v : Visitor σ) : Visitor (Watched σ) where
  readPage id := Run.watched (.read id) (v.readPage id)
  logPages := v.logPages
  onLeaf l := Run.watched (.hand l) (v.onLeaf l)

def Walker.forget (w : Walker (Watched σ)) : Walker σ :=
  ⟨w.visited, ⟨w.journal.log, w.journal.state.state⟩⟩

def forgetResult : EStateM.Result Error (Walker (Watched σ)) α → EStateM.Result Error (Walker σ) α
  | .ok a w => .ok a w.forget
  | .error e w => .error e w.forget

/-- Without the notes the first is the second. -/
def Forgets (a : Walk (Watched σ) α) (b : Walk σ α) : Prop := ∀ w, forgetResult (a w) = b w.forget

def Journal.forget (j : Journal (Watched σ)) : Journal σ := ⟨j.log, j.state.state⟩

theorem seen_watched {note : Watched σ → Watched σ} (r : Run σ α) :
    Seen Journal.forget (Run.watched note r) r := by
  intro j
  unfold Run.watched Journal.forget
  dsimp only
  cases r ⟨j.log, j.state.state⟩ <;> rfl

theorem seenAs_watched (v : Visitor σ) : v.watched.SeenAs Journal.forget v where
  read id := seen_watched (v.readPage id)
  visiting depth id header j := by
    change mapState Journal.forget (Run.logIf v.logPages _ j) = _
    cases v.logPages <;> rfl
  again _ _ := rfl
  leaf l := seen_watched (v.onLeaf l)

theorem Forgets.walk (v : Visitor σ) (root : PageId) :
    Forgets (v.watched.walk root) (v.walk root) := by
  intro w
  have hseen : mapState (Walker.through Journal.forget) (v.watched.walk root w) =
      v.walk root w.forget := (seenAs_watched v).walk root w
  rw [← hseen]
  cases v.watched.walk root w <;> rfl

/-! Walks one after the other -/

def answerOf : EStateM.Result Error (Walker σ) Unit → Except Error Unit × Walker σ
  | .ok () w => (.ok (), w)
  | .error e w => (.error e, w)

/-- Runs walks with one walker, whether they succeed or not. -/
def runEach : List (Walk σ Unit) → Walker σ → List (Except Error Unit) × Walker σ
  | [], w => ([], w)
  | a :: rest, w =>
    let (answer, w) := answerOf (a w)
    let (answers, w) := runEach rest w
    (answer :: answers, w)

theorem runEach_cons (a : Walk σ Unit) (rest : List (Walk σ Unit)) (w : Walker σ) :
    runEach (a :: rest) w = ((answerOf (a w)).1 :: (runEach rest (answerOf (a w)).2).1,
      (runEach rest (answerOf (a w)).2).2) := rfl

theorem runEach_append (as bs : List (Walk σ Unit)) (w : Walker σ) :
    runEach (as ++ bs) w = ((runEach as w).1 ++ (runEach bs (runEach as w).2).1,
      (runEach bs (runEach as w).2).2) := by
  induction as generalizing w with
  | nil => rfl
  | cons a as ih => rw [List.cons_append, runEach_cons, runEach_cons, ih, List.cons_append]

structure Errand (σ : Type) where
  root : PageId
  onLeaf : Leaf → Run σ Unit

namespace Errand

variable (file : File) (trace : Trace.Switches)

def walk (e : Errand σ) : Walk σ Unit := (Visitor.ofFile file trace e.onLeaf).walk e.root

def watched (e : Errand σ) : Walk (Watched σ) Unit :=
  (Visitor.ofFile file trace e.onLeaf).watched.walk e.root

/-- Watching makes no difference to walks. -/
theorem runEach_watched (errands : List (Errand σ)) (w : Walker (Watched σ)) :
    runEach (errands.map (walk file trace)) w.forget =
      ((runEach (errands.map (watched file trace)) w).1,
        (runEach (errands.map (watched file trace)) w).2.forget) := by
  induction errands generalizing w with
  | nil => rfl
  | cons e errands ih =>
    have hforget : answerOf (e.walk file trace w.forget) =
        ((answerOf (e.watched file trace w)).1, (answerOf (e.watched file trace w)).2.forget) := by
      rw [walk, ← Forgets.walk (Visitor.ofFile file trace e.onLeaf) e.root w]
      unfold watched
      cases (Visitor.ofFile file trace e.onLeaf).watched.walk e.root w <;> rfl
    rw [List.map_cons, List.map_cons, runEach_cons, runEach_cons, hforget]
    simp only [ih]

end Errand

end Ese.Tree
