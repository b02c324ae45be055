import Mathlib
import Ese.Proofs.Tree.Replay
/-!
Two walks side by side. A walk is pages, one behind the other and one below the other; a relation
that is kept by what is done on one page holds between whole walks. The bounds on a chain and on the
nesting are left open, with something else in place of what the walk does when it comes to one.
-/

namespace Ese.Tree

variable {σ τ : Type}

namespace Visitor

variable (v : Visitor σ)

/-- A page is entered, read and logged, and then done as `body` says. One that was entered before is
passed over, which is logged as well. -/
def visit (depth : Nat) (id : PageId) (body : Page → Walk σ Unit) : Walk σ Unit := do
  if ← Walk.enter id then
    let page ← Walk.ofRun (v.readPage id)
    Walk.ofRun (Run.logIf v.logPages (visiting depth id page.header))
    body page
  else Walk.ofRun (Run.log (.alreadyVisited id))

def finish (descend : PageId → Walk σ Unit) (rest : PageId → Walk σ Unit) (page : Page) :
    Walk σ Unit := do
  let values ← page.values
  match ← v.walkValues descend page values with
  | some next => rest next
  | none => pure ()

/-- A chain of pages; `stuck` takes over behind `steps` of them. -/
def chainWithin (stuck descend : PageId → Walk σ Unit) (depth : Nat) :
    (steps : Nat) → PageId → Walk σ Unit
  | 0, id => stuck id
  | steps + 1, id =>
    if id.isValid then v.visit depth id (v.finish descend (chainWithin stuck descend depth steps))
    else pure ()

/-- The tree at a page; `stuck` takes over where more than `nest` chains would be open at once. -/
def walkWithin (stuck : PageId → Walk σ Unit) (steps : Nat) :
    (nest depth : Nat) → PageId → Walk σ Unit
  | 0, _, start => stuck start
  | nest + 1, depth, start =>
    if maxDepth < depth then throw (.decode (.format (.treeTooDeep start maxDepth)))
    else v.chainWithin stuck (walkWithin stuck steps nest (depth + 1)) depth steps start

def endless (id : PageId) : Walk σ Unit := throw (.decode (.fault (.endlessChain id)))

theorem walkChain_eq (descend : PageId → Walk σ Unit) (depth steps : Nat) :
    v.walkChain descend depth steps = v.chainWithin endless descend depth steps := by
  induction steps with
  | zero => rfl
  | succ steps ih =>
    funext id
    rw [walkChain, chainWithin, ← ih]
    refine if_congr Iff.rfl (congrArg (Walk.enter id >>= ·) (funext fun isNew => ?_)) rfl
    cases isNew
    case false => rfl
    case true =>
      refine (bind_assoc ..).trans
        (congrArg (Walk.ofRun (v.readPage id) >>= ·) (funext fun page => ?_))
      let log : Run σ Unit := Run.logIf v.logPages (visiting depth id page.header)
      exact (bind_assoc ..).trans (congrArg (Walk.ofRun log >>= ·) (funext fun _ => bind_assoc ..))

theorem walkFrom_eq {room : Nat} (h : room ≤ maxDepth + 1) :
    v.walkFrom room = v.walkWithin endless maxChain (room + 1) (maxDepth + 1 - room) := by
  induction room with
  | zero => rfl
  | succ room ih =>
    funext start
    have hdepth : maxDepth + 1 - (room + 1) = maxDepth - room := Nat.add_sub_add_right ..
    have hbelow : maxDepth - room + 1 = maxDepth + 1 - room := by omega
    rw [walkFrom, walkChain_eq, walkWithin, hdepth, hbelow, ih (by omega), if_neg (by omega)]

theorem walk_eq (root : PageId) :
    v.walk root = v.walkWithin endless maxChain (maxDepth + 2) 0 root := by
  rw [walk, walkFrom_eq v le_rfl, Nat.sub_self]

variable {v} {depth : Nat} {id : PageId} {body : Page → Walk σ Unit} {w : Walker σ}

theorem visit_old (h : id ∈ w.visited) :
    v.visit depth id body w = .ok () (w.tell (.alreadyVisited id)) := by
  have henter : Walk.enter id w = .ok false w := if_pos (by simpa using h)
  rw [visit, bind_apply, henter]
  rfl

theorem visit_new (h : id ∉ w.visited) :
    v.visit depth id body w =
      (Walk.ofRun (v.readPage id) >>= fun page =>
        Walk.ofRun (Run.logIf v.logPages (visiting depth id page.header)) >>= fun _ => body page)
        { w with visited := w.visited.insert id } := by
  have henter : Walk.enter id w = .ok true { w with visited := w.visited.insert id } :=
    if_neg (by simpa using h)
  rw [visit, bind_apply, henter]
  rfl

end Visitor

def Walker.on (w : Walker σ) (logPages : Bool) (depth : Nat) (id : PageId)
    (header : Page.Header) : Walker σ where
  visited := w.visited.insert id
  journal := { w.journal with
    log := if logPages then w.journal.log.push (visiting depth id header) else w.journal.log }

theorem Visitor.visit_read {v : Visitor σ} {read : Reader} {depth : Nat} {id : PageId}
    {body : Page → Walk σ Unit} {w : Walker σ} (hread : v.readPage id = liftM (read id))
    (h : id ∉ w.visited) :
    v.visit depth id body w = match read id with
      | .ok page => body page (w.on v.logPages depth id page.header)
      | .error e => .error (.decode e) { w with visited := w.visited.insert id } := by
  rw [visit_new h, bind_apply, hread]
  rcases read id with e | page
  · rfl
  · unfold Walker.on
    cases v.logPages <;> rfl

/-- The relation is kept by what is done on one page. -/
structure Respects (v : Visitor σ) (v' : Visitor τ) (R : Walk σ Unit → Walk τ Unit → Prop) :
    Prop where
  done : R (pure ()) (pure ())
  seq : ∀ {a b : Walk σ Unit} {a' b' : Walk τ Unit}, R a a' → R b b' →
    R (a >>= fun _ => b) (a' >>= fun _ => b')
  deep : ∀ start, R (throw (.decode (.format (.treeTooDeep start maxDepth))))
    (throw (.decode (.format (.treeTooDeep start maxDepth))))
  page : ∀ depth id {descend rest : PageId → Walk σ Unit} {descend' rest' : PageId → Walk τ Unit},
    id.isValid → (∀ id, R (descend id) (descend' id)) → (∀ id, R (rest id) (rest' id)) →
    R (v.visit depth id (v.finish descend rest)) (v'.visit depth id (v'.finish descend' rest'))

namespace Respects

variable {v : Visitor σ} {v' : Visitor τ} {R : Walk σ Unit → Walk τ Unit → Prop}
  {stuck descend : PageId → Walk σ Unit} {stuck' descend' : PageId → Walk τ Unit}

theorem chainWithin (h : Respects v v' R) (hstuck : ∀ id, R (stuck id) (stuck' id))
    (hd : ∀ id, R (descend id) (descend' id)) (depth steps : Nat) (id : PageId) :
    R (v.chainWithin stuck descend depth steps id)
      (v'.chainWithin stuck' descend' depth steps id) := by
  induction steps generalizing id with
  | zero => exact hstuck id
  | succ steps ih =>
    rw [Visitor.chainWithin, Visitor.chainWithin]
    split
    · rename_i hv
      exact h.page depth id hv hd ih
    · exact h.done

theorem walkWithin (h : Respects v v' R) (hstuck : ∀ id, R (stuck id) (stuck' id))
    (steps nest depth : Nat) (start : PageId) :
    R (v.walkWithin stuck steps nest depth start)
      (v'.walkWithin stuck' steps nest depth start) := by
  induction nest generalizing depth start with
  | zero => exact hstuck start
  | succ nest ih =>
    rw [Visitor.walkWithin, Visitor.walkWithin]
    split
    · exact h.deep start
    · exact h.chainWithin hstuck (ih (depth + 1)) depth steps start

theorem walk (h : Respects v v' R) (hstuck : ∀ id, R (Visitor.endless id) (Visitor.endless id))
    (root : PageId) : R (v.walk root) (v'.walk root) := by
  rw [Visitor.walk_eq, Visitor.walk_eq]
  exact h.walkWithin hstuck ..

theorem walkAll (h : Respects v v' R) (hstuck : ∀ id, R (Visitor.endless id) (Visitor.endless id))
    (roots : List PageId) : R (v.walkAll roots) (v'.walkAll roots) := by
  induction roots with
  | nil => exact h.done
  | cons root roots ih => exact h.seq (h.walk hstuck root) ih

end Respects

structure Parts (v : Visitor σ) (v' : Visitor τ) (R : (α : Type) → Walk σ α → Walk τ α → Prop) :
    Prop where
  pure : ∀ {α : Type} (a : α), R α (pure a) (pure a)
  bind : ∀ {α β : Type} {a : Walk σ α} {a' : Walk τ α} {f : α → Walk σ β} {f' : α → Walk τ β},
    R α a a' → (∀ x, R β (f x) (f' x)) → R β (a >>= f) (a' >>= f')
  values : ∀ page : Page, R _ (liftM page.values) (liftM page.values)
  branch : ∀ value, R _ (liftM (BranchEntry.parse value)) (liftM (BranchEntry.parse value))
  deep : ∀ start, R Unit (throw (.decode (.format (.treeTooDeep start maxDepth))))
    (throw (.decode (.format (.treeTooDeep start maxDepth))))
  leaf : ∀ l, R Unit (Walk.ofRun (v.onLeaf l)) (Walk.ofRun (v'.onLeaf l))
  visit : ∀ depth id {body : Page → Walk σ Unit} {body' : Page → Walk τ Unit}, id.isValid →
    (∀ page, R Unit (body page) (body' page)) →
    R Unit (v.visit depth id body) (v'.visit depth id body')

namespace Parts

variable {v : Visitor σ} {v' : Visitor τ} {R : (α : Type) → Walk σ α → Walk τ α → Prop}
  {descend rest : PageId → Walk σ Unit} {descend' rest' : PageId → Walk τ Unit}

theorem forM {γ : Type} {f : γ → Walk σ Unit} {f' : γ → Walk τ Unit} (h : Parts v v' R)
    (hf : ∀ x, R Unit (f x) (f' x)) (xs : List γ) : R Unit (xs.forM f) (xs.forM f') := by
  induction xs with
  | nil => exact h.pure ()
  | cons x xs ih => exact h.bind (hf x) fun _ => ih

theorem walkEntry (h : Parts v v' R) (hd : ∀ id, R Unit (descend id) (descend' id)) (page : Page)
    (external value : TaggedValue) :
    R Unit (v.walkEntry descend page external value)
      (v'.walkEntry descend' page external value) := by
  unfold Visitor.walkEntry
  split
  · exact h.leaf _
  · exact h.bind (h.branch value) fun entry => hd entry.child

theorem finish (h : Parts v v' R) (hd : ∀ id, R Unit (descend id) (descend' id))
    (hrest : ∀ id, R Unit (rest id) (rest' id)) (page : Page) :
    R Unit (v.finish descend rest page) (v'.finish descend' rest' page) := by
  refine h.bind (h.values page) fun values => ?_
  rcases values with _ | ⟨external, entries⟩
  · exact h.bind (h.pure none) fun _ => by
      split
      · exact hrest _
      · exact h.pure ()
  · refine h.bind (h.bind (h.forM (h.walkEntry hd page external) entries) fun _ => h.pure _) ?_
    rintro (_ | next)
    · exact h.pure ()
    · exact hrest next

theorem respects (h : Parts v v' R) : Respects v v' (R Unit) where
  done := h.pure ()
  seq ha hb := h.bind ha fun _ => hb
  deep := h.deep
  page depth id := fun hv hd hrest => h.visit depth id hv (h.finish hd hrest)

end Parts

end Ese.Tree
