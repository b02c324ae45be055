import Mathlib
import Ese.Proofs.Failure
import Ese.Proofs.Tree.Harvest
import Ese.Proofs.Tree.Related
/-!
How walks fail: with an error of a page, of an entry or of the callback, or because the tree is too
deep. So a property of all these errors is one of the errors of the walk.
-/

namespace Ese.Tree

variable {σ : Type} {P : Error → Prop}

/-- What a walk does besides calling the callback fails only like this. -/
structure PagesFail (file : File) (P : Error → Prop) : Prop where
  page : ∀ id, Fails (P ∘ .decode) (file.readPage id)
  values : ∀ page : Page, Fails (P ∘ .decode) page.values
  branch : ∀ value, Fails (P ∘ .decode) (BranchEntry.parse value)
  deep : ∀ start, P (.decode (.format (.treeTooDeep start maxDepth)))
  endless : ∀ id, P (.decode (.fault (.endlessChain id)))

theorem failsFrom_ofRun {α : Type} {r : Run σ α} (h : FailsFrom P r) :
    FailsFrom P (Walk.ofRun r) := by
  intro w e w' he
  unfold Walk.ofRun at he
  rcases hr : r w.journal with ⟨a, j⟩ | ⟨e', j⟩
  · rw [hr] at he
    cases he
  · rw [hr] at he
    cases he
    exact h w.journal e j hr

theorem failsFrom_enter (id : PageId) : FailsFrom P (Walk.enter id : Walk σ Bool) := by
  intro w e w' he
  unfold Walk.enter at he
  split at he <;> cases he

theorem failsFrom_log (e : Trace.Event) : FailsFrom P (Run.log e : Run σ Unit) :=
  .of_total fun _ => ⟨(), _, rfl⟩

theorem failsFrom_logIf (wanted : Bool) (e : Trace.Event) :
    FailsFrom P (Run.logIf wanted e : Run σ Unit) := .of_total fun j => by
  obtain ⟨log, hlog⟩ := logIf_apply wanted e j
  exact ⟨(), _, hlog⟩

namespace PagesFail

variable {file : File} {trace : Trace.Switches} {onLeaf : Leaf → Run σ Unit}

theorem parts (h : PagesFail file P) (hleaf : ∀ l, FailsFrom P (onLeaf l)) :
    Parts (Visitor.ofFile file trace onLeaf) (Visitor.ofFile file trace onLeaf)
      fun _ a _ => FailsFrom P a where
  pure := FailsFrom.pure
  bind := FailsFrom.bind
  values page := .lift (h.values page)
  branch value := .lift (h.branch value)
  deep start := .throw (h.deep start)
  leaf l := failsFrom_ofRun (hleaf l)
  visit depth id := by
    intro body body' _ hbody
    refine (failsFrom_enter id).bind fun new => ?_
    cases new with
    | false =>
      rw [if_neg Bool.false_ne_true]
      exact failsFrom_ofRun (failsFrom_log _)
    | true =>
      have hread : FailsFrom P (Walk.ofRun (liftM (file.readPage id) : Run σ Page)) :=
        failsFrom_ofRun (.lift (h.page id))
      exact hread.bind fun page => (failsFrom_ofRun (failsFrom_logIf _ _)).bind fun _ => hbody page

theorem walkAll (h : PagesFail file P) (hleaf : ∀ l, FailsFrom P (onLeaf l))
    (roots : List PageId) : FailsFrom P ((Visitor.ofFile file trace onLeaf).walkAll roots) :=
  (h.parts hleaf).respects.walkAll (fun id => .throw (h.endless id)) roots

theorem walk (h : PagesFail file P) (hleaf : ∀ l, FailsFrom P (onLeaf l)) (root : PageId) :
    FailsFrom P ((Visitor.ofFile file trace onLeaf).walk root) :=
  (h.parts hleaf).respects.walk (fun id => .throw (h.endless id)) root

theorem survey (h : PagesFail file P) (hleaf : ∀ l, FailsFrom P (onLeaf l)) (roots : List PageId) :
    FailsFrom P ((Visitor.ofFile file trace onLeaf).survey roots) := by
  intro j e j' he
  have hall : FailsFrom P ((Visitor.ofFile file trace onLeaf).walkAll roots) :=
    h.walkAll hleaf roots
  unfold Visitor.survey at he
  rcases hw : (Visitor.ofFile file trace onLeaf).walkAll roots ⟨{}, j⟩ with ⟨u, w⟩ | ⟨e', w⟩
  · rw [hw] at he
    cases he
  · rw [hw] at he
    cases he
    exact hall _ e w hw

end PagesFail

/-- A harvest ends as the walk does that keeps everything. -/
theorem of_error_harvest {file : File} {root : PageId} {e : Error}
    (h : FailsFrom P ((Visitor.ofFile file {} fun l => Run.ofCallback (keepLeaf l)).walk root))
    (he : (harvest file root).2 = .error e) : P e := by
  unfold harvest at he
  cases hw : (Visitor.ofFile file {} fun l => Run.ofCallback (keepLeaf l)).walk root
      { visited := {}, journal := ⟨#[], []⟩ } with
  | ok u w =>
    rw [hw] at he
    cases he
  | error e' w =>
    rw [hw] at he
    cases he
    exact h _ _ _ hw

theorem PagesFail.harvest {file : File} (h : PagesFail file P) {root : PageId} {e : Error}
    (he : (harvest file root).2 = .error e) : P e :=
  of_error_harvest
    (h.walk (fun l => .of_total fun j => ⟨(), { j with state := j.state ++ [l] }, rfl⟩) root) he

end Ese.Tree
