import Mathlib
import Ese.Proofs.Tree.Ledger
/-!
What the log tells of a walk. When pages are logged, a walk tells of the pages that it asked for and
could read: each once, in the order in which it came to them, and however it ended. The callback is
only asked not to log pages of its own.
-/

namespace Ese

open Ese.Tree

variable {σ α β : Type}

def stateAfter : EStateM.Result Error σ α → σ
  | .ok _ s => s
  | .error _ s => s

theorem stateAfter_bind (a : Callback σ α) (f : α → Callback σ β) (s : σ) :
    stateAfter ((a >>= f) s) = match a s with
      | .ok x s' => stateAfter (f x s')
      | .error _ s' => s' := by
  rw [bind_apply]
  cases a s <;> rfl

def Reticent (r : Run σ α) : Prop :=
  ∀ j, loggedPages (stateAfter (r j)).log.toList = loggedPages j.log.toList

namespace Reticent

theorem pure (x : α) : Reticent (pure x : Run σ α) := fun _ => rfl

theorem lift (x : Except DecodeError α) : Reticent (liftM x : Run σ α) := by
  intro j
  cases x <;> rfl

theorem bind {a : Run σ α} {f : α → Run σ β} (h : Reticent a) (hf : ∀ x, Reticent (f x)) :
    Reticent (a >>= f) := by
  intro j
  have hj := h j
  rw [stateAfter_bind]
  rcases ha : a j with ⟨x, j'⟩ | ⟨e, j'⟩ <;> rw [ha] at hj
  · exact (hf x j').trans hj
  · exact hj

theorem log {e : Trace.Event} (h : loggedPages [e] = []) : Reticent (Run.log e : Run σ Unit) := by
  intro j
  change loggedPages (j.log.push e).toList = _
  rw [Array.toList_push, loggedPages, List.filterMap_append]
  exact (congrArg _ h).trans (List.append_nil _)

theorem logIf {e : Trace.Event} (h : loggedPages [e] = []) (wanted : Bool) :
    Reticent (Run.logIf wanted e : Run σ Unit) := by
  cases wanted
  · exact pure ()
  · exact log h

theorem forM_log {events : List Trace.Event} (h : ∀ e ∈ events, loggedPages [e] = []) :
    Reticent (events.forM Run.log : Run σ Unit) := by
  induction events with
  | nil => exact pure ()
  | cons e events ih =>
    exact bind (log (h e List.mem_cons_self)) fun _ => ih fun e' he =>
      h e' (List.mem_cons_of_mem e he)

theorem ofCallback (c : Callback σ α) : Reticent (Run.ofCallback c) := by
  intro j
  unfold Run.ofCallback
  cases c j.state <;> rfl

end Reticent

end Ese

namespace Ese.Tree

variable {σ α β : Type}

def Walker.unnoted (w : Walker σ) : Walker (Watched σ) :=
  ⟨w.visited, ⟨w.journal.log, { state := w.journal.state }⟩⟩

def Visitor.asked (v : Visitor σ) (root : PageId) (w : Walker σ) : List PageId :=
  (stateAfter (v.watched.walk root w.unnoted)).journal.state.reads

theorem stateAfter_walk (v : Visitor σ) (root : PageId) (w : Walker σ) :
    stateAfter (v.walk root w) = (stateAfter (v.watched.walk root w.unnoted)).forget := by
  have hforget : forgetResult (v.watched.walk root w.unnoted) = v.walk root w :=
    Forgets.walk v root w.unnoted
  rw [← hforget]
  cases v.watched.walk root w.unnoted <;> rfl

/-- The log has the pages that were asked for and can be read, each once, and in order. -/
structure Tells (read : Reader) (asked : List PageId) (w w' : Walker σ) : Prop where
  told : loggedPages w'.journal.log.toList =
    loggedPages w.journal.log.toList ++ asked.filter fun id => (read id).isOk
  once : asked.Nodup
  fresh : ∀ id ∈ asked, id ∉ w.visited
  visited : ∀ id, id ∈ w'.visited ↔ id ∈ w.visited ∨ id ∈ asked

theorem Tells.nothing {read : Reader} {w w' : Walker σ} (hvisited : w'.visited = w.visited)
    (hlog : loggedPages w'.journal.log.toList = loggedPages w.journal.log.toList) :
    Tells read [] w w' := by
  refine ⟨?_, .nil, by simp, fun id => ?_⟩
  · rw [hlog, List.filter_nil, List.append_nil]
  · simp [hvisited]

theorem Tells.trans {read : Reader} {as bs : List PageId} {w w' w'' : Walker σ}
    (h : Tells read as w w') (h' : Tells read bs w' w'') : Tells read (as ++ bs) w w'' where
  told := by rw [h'.told, h.told, List.filter_append, List.append_assoc]
  once := List.nodup_append.mpr ⟨h.once, h'.once, fun a ha b hb hab =>
    h'.fresh b hb ((h.visited b).mpr (.inr (hab ▸ ha)))⟩
  fresh id hid := by
    rcases List.mem_append.mp hid with hid | hid
    · exact h.fresh id hid
    · exact fun hold => h'.fresh id hid ((h.visited id).mpr (.inl hold))
  visited id := by rw [h'.visited, h.visited, List.mem_append, or_assoc]

/-- The page is marked, asked for and, if it can be read, logged. -/
theorem Tells.page {read : Reader} {id : PageId} {w w' : Walker σ} (hnew : id ∉ w.visited)
    (hvisited : w'.visited = w.visited.insert id)
    (hlog : loggedPages w'.journal.log.toList = loggedPages w.journal.log.toList ++
      if (read id).isOk then [id] else []) : Tells read [id] w w' where
  told := by
    rw [hlog, List.filter_singleton]
    cases (read id).isOk <;> rfl
  once := List.nodup_singleton id
  fresh p hp := by rwa [List.mem_singleton.mp hp]
  visited p := by rw [hvisited, Std.HashSet.mem_insert, List.mem_singleton, beq_iff_eq, or_comm,
    eq_comm]

/-- What a part of a walk notes of the pages is what it tells of them. -/
def Candid (read : Reader) (a : Walk (Watched σ) α) : Prop :=
  ∀ w, ∃ asked, (stateAfter (a w)).journal.state.reads = w.journal.state.reads ++ asked ∧
    Tells read asked w (stateAfter (a w))

namespace Candid

variable {read : Reader}

theorem pure (x : α) : Candid read (pure x : Walk (Watched σ) α) :=
  fun _ => ⟨[], (List.append_nil _).symm, .nothing rfl rfl⟩

theorem throw (e : Error) : Candid read (throw e : Walk (Watched σ) α) :=
  fun _ => ⟨[], (List.append_nil _).symm, .nothing rfl rfl⟩

theorem lift (x : Except DecodeError α) : Candid read (liftM x : Walk (Watched σ) α) := by
  cases x with
  | error e => exact throw _
  | ok x => exact pure x

theorem bind {a : Walk (Watched σ) α} {f : α → Walk (Watched σ) β} (h : Candid read a)
    (hf : ∀ x, Candid read (f x)) : Candid read (a >>= f) := by
  intro w
  obtain ⟨first, hreads, htells⟩ := h w
  rw [stateAfter_bind]
  rcases ha : a w with ⟨x, w'⟩ | ⟨e, w'⟩
  · rw [ha] at hreads htells
    obtain ⟨rest, hreads', htells'⟩ := hf x w'
    refine ⟨first ++ rest, ?_, htells.trans htells'⟩
    rw [hreads', ← List.append_assoc]
    exact congrArg (· ++ rest) hreads
  · rw [ha] at hreads htells
    exact ⟨first, hreads, htells⟩

variable {file : File} {trace : Trace.Switches} {onLeaf : Leaf → Run σ Unit}

/-- A leaf entry is noted, which changes nothing for the pages. -/
theorem leaf (h : ∀ l, Reticent (onLeaf l)) (l : Leaf) :
    Candid read (Walk.ofRun ((Visitor.ofFile file trace onLeaf).watched.onLeaf l)) := by
  intro w
  have hl := h l ⟨w.journal.log, w.journal.state.state⟩
  change ∃ asked,
    (stateAfter (Walk.ofRun (Run.watched (.hand l) (onLeaf l)) w)).journal.state.reads =
    _ ∧ Tells read asked w (stateAfter (Walk.ofRun (Run.watched (.hand l) (onLeaf l)) w))
  unfold Walk.ofRun Run.watched
  dsimp only
  rcases hrun : onLeaf l ⟨w.journal.log, w.journal.state.state⟩ with ⟨u, j⟩ | ⟨e, j⟩ <;>
  · rw [hrun] at hl
    exact ⟨[], (List.append_nil _).symm, .nothing rfl hl⟩

theorem visit (hpages : trace.pages = true) (depth : Nat) (id : PageId)
    {body : Page → Walk (Watched σ) Unit} (hbody : ∀ page, Candid file.readPage (body page)) :
    Candid file.readPage ((Visitor.ofFile file trace onLeaf).watched.visit depth id body) := by
  intro w
  by_cases hnew : id ∈ w.visited
  · rw [Visitor.visit_old hnew]
    refine ⟨[], (List.append_nil _).symm, .nothing rfl ?_⟩
    exact Reticent.log rfl w.journal
  rw [Visitor.visit_new hnew, bind_apply, ofRun_readPage]
  rcases hread : file.readPage id with e | page
  · refine ⟨[id], rfl, .page hnew rfl ?_⟩
    rw [hread]
    exact (List.append_nil _).symm
  · have hlog : Walk.ofRun (Run.logIf (Visitor.ofFile file trace onLeaf).watched.logPages
        (visiting depth id page.header))
        ⟨w.visited.insert id, ⟨w.journal.log, w.journal.state.read id⟩⟩ = .ok ()
          ⟨w.visited.insert id, ⟨w.journal.log.push (visiting depth id page.header),
            w.journal.state.read id⟩⟩ := by
      change Walk.ofRun (Run.logIf trace.pages _) _ = _
      rw [hpages]
      rfl
    dsimp only
    rw [bind_apply, hlog]
    have hpage : Tells file.readPage [id] w ⟨w.visited.insert id,
        ⟨w.journal.log.push (visiting depth id page.header), w.journal.state.read id⟩⟩ := by
      refine .page hnew rfl ?_
      rw [hread, Array.toList_push, loggedPages, List.filterMap_append]
      rfl
    obtain ⟨rest, hreads, htells⟩ := hbody page ⟨w.visited.insert id,
      ⟨w.journal.log.push (visiting depth id page.header), w.journal.state.read id⟩⟩
    exact ⟨id :: rest, hreads.trans (List.append_assoc _ [id] rest), hpage.trans htells⟩

theorem walk (hpages : trace.pages = true) (h : ∀ l, Reticent (onLeaf l)) (root : PageId) :
    Candid file.readPage ((Visitor.ofFile file trace onLeaf).watched.walk root) := by
  have hparts : Parts (Visitor.ofFile file trace onLeaf).watched
      (Visitor.ofFile file trace onLeaf).watched fun _ a _ => Candid file.readPage a := {
    pure := pure
    bind := bind
    values := fun page => lift page.values
    branch := fun value => lift (BranchEntry.parse value)
    deep := fun _ => throw _
    leaf := leaf h
    visit := fun depth id _ _ _ hbody => visit hpages depth id hbody }
  exact hparts.respects.walk (fun _ => throw _) root

end Candid

/-- A walk that logs pages, with a callback that does not, tells of the pages that it reads. -/
theorem tells_walk {file : File} {trace : Trace.Switches} {onLeaf : Leaf → Run σ Unit}
    (hpages : trace.pages = true) (h : ∀ l, Reticent (onLeaf l)) (root : PageId) (w : Walker σ) :
    Tells file.readPage ((Visitor.ofFile file trace onLeaf).asked root w) w
      (stateAfter ((Visitor.ofFile file trace onLeaf).walk root w)) := by
  have hcandid : Candid file.readPage ((Visitor.ofFile file trace onLeaf).watched.walk root) :=
    Candid.walk hpages h root
  obtain ⟨asked, hreads, htells⟩ := hcandid w.unnoted
  have hasked : (Visitor.ofFile file trace onLeaf).asked root w = asked := hreads
  rw [stateAfter_walk, hasked]
  exact ⟨htells.told, htells.once, htells.fresh, htells.visited⟩

end Ese.Tree
