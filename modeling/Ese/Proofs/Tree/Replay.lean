import Mathlib
import Ese.Proofs.Tree.Trail
/-!
Walks replay their trails: each step is played to the visitor, until it refuses one or the trail
ends. So what a walk does to the state of a callback depends on the leaf entries of its trail alone.
-/

namespace Ese.Tree

variable {σ α β : Type}

def conclude (x : Except Error α) : Callback σ α := fun s =>
  match x with
  | .ok a => .ok a s
  | .error e => .error e s

theorem bind_apply (a : Callback σ α) (f : α → Callback σ β) (s : σ) :
    (a >>= f) s = match a s with
      | .ok x s' => f x s'
      | .error e s' => .error e s' := by
  change EStateM.bind a f s = _
  unfold EStateM.bind
  cases a s <;> rfl

theorem liftM_apply (x : Except DecodeError α) (s : σ) :
    (liftM x : Callback σ α) s = match x with
      | .ok a => .ok a s
      | .error e => .error (.decode e) s := by
  cases x <;> rfl

theorem forM_cons_apply {γ : Type} (f : γ → Callback σ Unit) (x : γ) (xs : List γ) (s : σ) :
    (x :: xs).forM f s = match f x s with
      | .ok _ s' => xs.forM f s'
      | .error e s' => .error e s' := by
  change (f x >>= fun _ => xs.forM f) s = _
  rw [bind_apply]
  cases f x s <;> rfl

theorem forM_log (events : List Trace.Event) (j : Journal σ) :
    ∃ log, events.forM Run.log j = .ok () { j with log } := by
  induction events generalizing j with
  | nil => exact ⟨j.log, rfl⟩
  | cons e events ih =>
    obtain ⟨log, h⟩ := ih { j with log := j.log.push e }
    exact ⟨log, h⟩

theorem logIf_apply (wanted : Bool) (e : Trace.Event) (j : Journal σ) :
    ∃ log, Run.logIf wanted e j = .ok () { j with log } := by
  cases wanted <;> exact ⟨_, rfl⟩

def Walker.tell (w : Walker σ) (e : Trace.Event) : Walker σ where
  visited := w.visited
  journal := { w.journal with log := w.journal.log.push e }

def Step.play (v : Visitor σ) : Step → Walk σ Unit
  | .enter id => fun w => .ok () { w with visited := w.visited.insert id }
  | .visit id depth header => Walk.ofRun (Run.logIf v.logPages (visiting depth id header))
  | .again id => Walk.ofRun (Run.log (.alreadyVisited id))
  | .leaf l => Walk.ofRun (v.onLeaf l)

def replay (v : Visitor σ) (steps : List Step) : Walk σ Unit := steps.forM (Step.play v)

theorem Walk.visited_ofRun {r : Run σ α} {w w' : Walker σ} {a : α}
    (h : Walk.ofRun r w = .ok a w') : w'.visited = w.visited := by
  unfold Walk.ofRun at h
  cases hr : r w.journal with
  | ok b j =>
    rw [hr] at h
    cases h
    rfl
  | error e j =>
    rw [hr] at h
    cases h

theorem Step.visited_play {v : Visitor σ} {s : Step} {w w' : Walker σ} {u : Unit}
    (h : s.play v w = .ok u w') : w'.visited = marked w.visited [s] := by
  cases s with
  | enter id =>
    cases h
    simp [marked]
  | visit id depth header => exact Walk.visited_ofRun h
  | again id =>
    cases h
    simp [marked]
  | leaf l => exact Walk.visited_ofRun h

/-! Walks by their trails -/

/-- The walk is its trail, with each step done as `play` does it. -/
def Replays (play : Step → Walk σ Unit) (a : Walk σ α) (t : Trail α) : Prop :=
  ∀ w, a w = ((t w.visited).1.forM play >>= fun _ => conclude (t w.visited).2) w

/-- The steps mark the pages that they enter, and no others. -/
def Marks (play : Step → Walk σ Unit) : Prop :=
  ∀ s w w' u, play s w = .ok u w' → w'.visited = marked w.visited [s]

/-- The steps are done as the walks of a visitor do them. -/
structure Plays (v : Visitor σ) (read : Reader) (play : Step → Walk σ Unit) : Prop where
  marks : Marks play
  enter : ∀ id w, Walk.ofRun (v.readPage id) { w with visited := w.visited.insert id } =
    (play (.enter id) >>= fun _ => liftM (read id)) w
  visit : ∀ id depth header, play (.visit id depth header) =
    Walk.ofRun (Run.logIf v.logPages (visiting depth id header))
  again : ∀ id, play (.again id) = Walk.ofRun (Run.log (.alreadyVisited id))
  leaf : ∀ l, play (.leaf l) = Walk.ofRun (v.onLeaf l)

theorem Marks.visited_forM {play : Step → Walk σ Unit} (h : Marks play) {steps : List Step}
    {w w' : Walker σ} {u : Unit} (hplay : steps.forM play w = .ok u w') :
    w'.visited = marked w.visited steps := by
  induction steps generalizing w with
  | nil =>
    cases hplay
    simp [marked]
  | cons s steps ih =>
    rw [forM_cons_apply] at hplay
    cases hs : play s w with
    | error e w₁ =>
      rw [hs] at hplay
      cases hplay
    | ok u₁ w₁ =>
      rw [hs] at hplay
      rw [ih hplay, h s w w₁ u₁ hs, ← marked_append]
      rfl

namespace Replays

variable {v : Visitor σ} {read : Reader} {play : Step → Walk σ Unit}

theorem pure (a : α) : Replays play (pure a) (pure a) := fun _ => rfl

theorem lift (x : Except DecodeError α) : Replays play (liftM x) (Trail.ofExcept x) := by
  intro w
  cases x <;> rfl

theorem say (s : Step) : Replays play (play s) (Trail.say s) := by
  intro w
  change play s w = ((play s >>= fun _ => Pure.pure ()) >>= fun _ => Pure.pure ()) w
  simp

theorem bind (hplay : Marks play) {a : Walk σ α} {f : α → Walk σ β} {t : Trail α}
    {g : α → Trail β} (ha : Replays play a t) (hf : ∀ x, Replays play (f x) (g x)) :
    Replays play (a >>= f) (t >>= g) := by
  intro w
  have hw := ha w
  have hbind : (t >>= g) w.visited = Trail.andThen t g w.visited := rfl
  rw [hbind, bind_apply, hw, bind_apply]
  unfold Trail.andThen
  rcases ht : t w.visited with ⟨steps, answer⟩
  cases answer with
  | error e =>
    rw [bind_apply]
    cases steps.forM play w <;> rfl
  | ok x =>
    have happend (rest : List Step) :
        (steps ++ rest).forM play = (steps.forM play >>= fun _ => rest.forM play) := by simp
    simp only [happend, bind_assoc]
    rw [bind_apply]
    cases hr : steps.forM play w with
    | error e w' => rfl
    | ok u w' =>
      -- the rest starts where the steps that were played end
      have hrest := hf x w'
      rw [hplay.visited_forM hr] at hrest
      exact hrest

theorem forM (hplay : Marks play) {γ : Type} {f : γ → Walk σ Unit} {g : γ → Trail Unit}
    (h : ∀ x, Replays play (f x) (g x)) (xs : List γ) :
    Replays play (xs.forM f) (xs.forM g) := by
  induction xs with
  | nil => exact pure ()
  | cons x xs ih => exact bind hplay (h x) fun _ => ih

def onPage (v : Visitor σ) (read : Reader) (descend : PageId → Walk σ Unit) (depth : Nat)
    (id : PageId) : Walk σ (Option PageId) := do
  let page ← liftM (read id)
  Walk.ofRun (Run.logIf v.logPages (visiting depth id page.header))
  let values ← liftM page.values
  v.walkValues descend page values

section

variable (hplay : Plays v read play)

include hplay

theorem walkPage_eq (descend : PageId → Walk σ Unit) (depth : Nat) (id : PageId) (w : Walker σ) :
    v.walkPage descend depth id { w with visited := w.visited.insert id } =
      (play (.enter id) >>= fun _ => onPage v read descend depth id) w := by
  unfold Visitor.walkPage onPage
  rw [bind_apply, hplay.enter, ← bind_apply, bind_assoc]

section

variable {descend : PageId → Walk σ Unit} {descendTrail : PageId → Trail Unit}
  (hd : ∀ id, Replays play (descend id) (descendTrail id))

include hd

theorem walkEntry (page : Page) (external value : TaggedValue) :
    Replays play (v.walkEntry descend page external value)
      (Trail.entry descendTrail page external value) := by
  unfold Visitor.walkEntry Trail.entry
  split
  · rw [← hplay.leaf]
    exact say _
  · exact bind hplay.marks (lift _) fun entry => hd entry.child

theorem walkValues (page : Page) (values : List TaggedValue) :
    Replays play (v.walkValues descend page values) (Trail.values descendTrail page values) := by
  cases values with
  | nil => exact pure none
  | cons external entries =>
    exact bind hplay.marks (forM hplay.marks (walkEntry hplay hd page external) entries)
      fun _ => pure _

theorem walkPage (depth : Nat) (id : PageId) :
    Replays play (onPage v read descend depth id) (Trail.page read descendTrail depth id) := by
  refine bind hplay.marks (lift _) fun page => bind hplay.marks ?_ fun _ => ?_
  · rw [← hplay.visit]
    exact say _
  · exact bind hplay.marks (lift _) (walkValues hplay hd page)

/-- A page that was visited already is passed over, and with it all that would follow. -/
theorem enter {rest : Option PageId → Walk σ Unit} {restTrail : Option PageId → Trail Unit}
    (hrest : ∀ next, Replays play (rest next) (restTrail next)) (depth : Nat) (id : PageId) :
    Replays play
      (do
        if ← Walk.enter id then v.walkPage descend depth id >>= rest
        else Walk.ofRun (Run.log (.alreadyVisited id)))
      (do
        if ← Trail.enter id then Trail.page read descendTrail depth id >>= restTrail
        else Trail.say (.again id)) := by
  intro w
  by_cases hold : w.visited.contains id
  · have hwalk : Walk.enter id w = .ok false w := if_pos hold
    have htrail : Trail.enter id w.visited = ([], .ok false) := if_pos hold
    rw [bind_apply, hwalk, Trail.bind_of_ok htrail, marked_nil]
    exact hplay.again id ▸ say (.again id) w
  · have hwalk : Walk.enter id w = .ok true { w with visited := w.visited.insert id } :=
      if_neg hold
    have htrail : Trail.enter id w.visited = ([.enter id], .ok true) := if_neg hold
    have hpage := bind hplay.marks (walkPage hplay hd depth id) hrest
    have hall := bind hplay.marks (say (.enter id)) (fun _ => hpage) w
    rw [bind_apply, hwalk, Trail.bind_of_ok htrail]
    rw [Trail.bind_of_ok (show Trail.say (.enter id) w.visited = ([.enter id], .ok ()) from rfl)]
      at hall
    refine Eq.trans ?_ hall
    change (v.walkPage descend depth id >>= _) _ = _
    rw [bind_apply, walkPage_eq hplay, ← bind_apply]
    exact congrFun (bind_assoc _ _ _) _

theorem walkChain (depth steps : Nat) (id : PageId) :
    Replays play (v.walkChain descend depth steps id)
      (Trail.chain read descendTrail depth steps id) := by
  induction steps generalizing id with
  | zero => intro w; rfl
  | succ steps ih =>
    unfold Visitor.walkChain Trail.chain
    split
    case isFalse => exact pure ()
    refine enter hplay hd (fun next => ?_) depth id
    cases next with
    | none => exact pure ()
    | some next => exact ih next

end

theorem walkFrom (room : Nat) (start : PageId) :
    Replays play (v.walkFrom room start) (Trail.tree read room start) := by
  induction room generalizing start with
  | zero => intro w; rfl
  | succ room ih => exact walkChain hplay ih _ _ start

theorem walk (root : PageId) : Replays play (v.walk root) (trail read root) :=
  walkFrom hplay _ root

end

end Replays

/-- The walk does what its trail says. -/
def Follows (v : Visitor σ) (a : Walk σ α) (t : Trail α) : Prop :=
  ∀ w, a w = (replay v (t w.visited).1 >>= fun _ => conclude (t w.visited).2) w

theorem marks_play (v : Visitor σ) : Marks (Step.play v) := fun _ _ _ _ => Step.visited_play

theorem visited_replay {v : Visitor σ} {steps : List Step} {w w' : Walker σ} {u : Unit}
    (h : replay v steps w = .ok u w') : w'.visited = marked w.visited steps :=
  (marks_play v).visited_forM h

theorem plays_play {v : Visitor σ} {read : Reader} (hread : ∀ id, v.readPage id = liftM (read id)) :
    Plays v read (Step.play v) where
  marks := marks_play v
  enter id w := by
    rw [hread]
    cases read id <;> rfl
  visit _ _ _ := rfl
  again _ := rfl
  leaf _ := rfl

namespace Follows

variable {v : Visitor σ}

theorem forM {γ : Type} {f : γ → Walk σ Unit} {g : γ → Trail Unit}
    (h : ∀ x, Follows v (f x) (g x)) (xs : List γ) : Follows v (xs.forM f) (xs.forM g) :=
  Replays.forM (marks_play v) h xs

theorem walk {read : Reader} (hread : ∀ id, v.readPage id = liftM (read id)) (root : PageId) :
    Follows v (v.walk root) (trail read root) :=
  Replays.walk (plays_play hread) root

theorem of_ok {a : Walk σ α} {t : Trail α} (h : Follows v a t) {w w' : Walker σ} {x : α}
    (ha : a w = .ok x w') :
    ∃ steps, t w.visited = (steps, .ok x) ∧ replay v steps w = .ok () w' := by
  rw [h w, bind_apply] at ha
  rcases ht : t w.visited with ⟨steps, answer⟩
  rw [ht] at ha
  cases hr : replay v steps w with
  | error e w₁ =>
    rw [hr] at ha
    cases ha
  | ok u w₁ =>
    rw [hr] at ha
    cases answer with
    | error e => cases ha
    | ok y =>
      cases ha
      exact ⟨steps, rfl, hr⟩

theorem to_ok {a : Walk σ α} {t : Trail α} (h : Follows v a t) {w w' : Walker σ} {x : α}
    {steps : List Step} (ht : t w.visited = (steps, .ok x)) (hr : replay v steps w = .ok () w') :
    a w = .ok x w' := by
  rw [h w, bind_apply, ht, hr]
  rfl

end Follows

/-! What a callback makes of a trail -/

def Walk.onState : EStateM.Result Error (Walker σ) α → EStateM.Result Error σ α
  | .ok a w => .ok a w.journal.state
  | .error e w => .error e w.journal.state

/-- The visitor does to the state what the callback does, whatever it logs. -/
def Visitor.Calls (v : Visitor σ) (f : Leaf → Callback σ Unit) : Prop :=
  ∀ l w, Walk.onState (Walk.ofRun (v.onLeaf l) w) = f l w.journal.state

theorem Visitor.calls_ofCallback (file : File) (trace : Trace.Switches)
    (f : Leaf → Callback σ Unit) :
    (Visitor.ofFile file trace fun l => Run.ofCallback (f l)).Calls f := by
  intro l w
  unfold Visitor.ofFile Walk.ofRun Run.ofCallback
  simp only
  cases f l w.journal.state <;> rfl

/-- Only leaf entries can be refused, and only they change the state. -/
theorem play_quiet (v : Visitor σ) {s : Step} (hs : leaves [s] = []) (w : Walker σ) :
    ∃ w', s.play v w = .ok () w' ∧ w'.journal.state = w.journal.state := by
  cases s with
  | enter id => exact ⟨_, rfl, rfl⟩
  | visit id depth header =>
    unfold Step.play
    cases v.logPages <;> exact ⟨_, rfl, rfl⟩
  | again id => exact ⟨_, rfl, rfl⟩
  | leaf l => cases hs

/-- The callback gets the leaf entries of the trail, up to the first that it refuses. -/
theorem onState_replay {v : Visitor σ} {f : Leaf → Callback σ Unit} (hv : v.Calls f)
    (steps : List Step) (w : Walker σ) :
    Walk.onState (replay v steps w) = (leaves steps).forM f w.journal.state := by
  induction steps generalizing w with
  | nil => rfl
  | cons s steps ih =>
    change Walk.onState ((s.play v >>= fun _ => replay v steps) w) = _
    rw [bind_apply]
    rcases s.leaf_or_quiet with ⟨l, rfl⟩ | hs
    · have hl := hv l w
      rw [leaves_leaf, forM_cons_apply, ← hl,
        show Step.play v (.leaf l) w = Walk.ofRun (v.onLeaf l) w from rfl]
      cases Walk.ofRun (v.onLeaf l) w with
      | error e w' => rfl
      | ok u w' => exact ih w'
    · obtain ⟨w', hw', hstate⟩ := play_quiet v hs w
      rw [hw', leaves_cons_of_quiet hs, ← hstate]
      exact ih w'

theorem state_replay {v : Visitor σ} {f : Leaf → Callback σ Unit} (hv : v.Calls f)
    {steps : List Step} {w w' : Walker σ} {u : Unit} (h : replay v steps w = .ok u w') :
    (leaves steps).forM f w.journal.state = .ok () w'.journal.state := by
  rw [← onState_replay hv steps w, h]
  rfl

theorem replay_of_state {v : Visitor σ} {f : Leaf → Callback σ Unit} (hv : v.Calls f)
    {steps : List Step} {w : Walker σ} {s : σ}
    (h : (leaves steps).forM f w.journal.state = .ok () s) :
    ∃ w', replay v steps w = .ok () w' ∧ w'.journal.state = s := by
  rw [← onState_replay hv steps w] at h
  cases hr : replay v steps w with
  | error e w' =>
    rw [hr] at h
    cases h
  | ok u w' =>
    rw [hr] at h
    cases h
    exact ⟨w', rfl, rfl⟩

/-- A walk hands the leaf entries of its trail to the callback, and then answers as the trail
does. -/
theorem Follows.onState {v : Visitor σ} {f : Leaf → Callback σ Unit} (hv : v.Calls f)
    {a : Walk σ α} {t : Trail α} (h : Follows v a t) (w : Walker σ) :
    Walk.onState (a w) = ((leaves (t w.visited).1).forM f >>= fun _ => conclude (t w.visited).2)
      w.journal.state := by
  rw [h w, bind_apply, bind_apply, ← onState_replay hv]
  cases replay v (t w.visited).1 w with
  | error e w' => rfl
  | ok u w' =>
    change Walk.onState (conclude (t w.visited).2 w') = conclude (t w.visited).2 w'.journal.state
    cases (t w.visited).2 <;> rfl

def Run.onState : EStateM.Result Error (Journal σ) α → EStateM.Result Error σ α
  | .ok a j => .ok a j.state
  | .error e j => .error e j.state

/-- A callback on the tree at a root page: it gets the leaf entries, and then the walk ends. -/
def sweep (read : Reader) (root : PageId) (f : Leaf → Callback σ Unit) : Callback σ Unit :=
  (leaves (trail read root {}).1).forM f >>= fun _ => conclude (trail read root {}).2

theorem onState_survey {v : Visitor σ} {read : Reader}
    (hread : ∀ id, v.readPage id = liftM (read id))
    {f : Leaf → Callback σ Unit} (hv : v.Calls f) (root : PageId) (j : Journal σ) :
    ∃ pages, Run.onState (v.survey [root] j) =
      (sweep read root f >>= fun _ => pure pages) j.state := by
  have hwalk := Follows.onState hv (Follows.walk hread root) { visited := {}, journal := j }
  have hsweep : sweep read root f j.state =
      Walk.onState (v.walk root { visited := {}, journal := j }) := hwalk.symm
  have hall : v.walkAll [root] { visited := {}, journal := j } =
      v.walk root { visited := {}, journal := j } := by
    change (v.walk root >>= fun _ => pure ()) _ = _
    rw [bind_apply]
    cases v.walk root { visited := {}, journal := j } <;> rfl
  unfold Visitor.survey
  simp only [hall, bind_apply, hsweep]
  cases v.walk root { visited := {}, journal := j } with
  | ok u w => exact ⟨w.visited.size, rfl⟩
  | error e w => exact ⟨0, rfl⟩

theorem forM_of_total {γ : Type} {f : γ → Callback σ Unit} (hf : ∀ x s, ∃ s', f x s = .ok () s')
    (xs : List γ) (s : σ) : ∃ s', xs.forM f s = .ok () s' := by
  induction xs generalizing s with
  | nil => exact ⟨s, rfl⟩
  | cons x xs ih =>
    obtain ⟨s₁, h₁⟩ := hf x s
    obtain ⟨s', h'⟩ := ih s₁
    exact ⟨s', by rw [forM_cons_apply, h₁]; exact h'⟩

/-! What a walk logs -/

def told (logPages : Bool) (steps : List Step) : List Trace.Event :=
  steps.flatMap fun
    | .visit id depth header => if logPages then [visiting depth id header] else []
    | .again id => [.alreadyVisited id]
    | _ => []

theorem told_append (logPages : Bool) (a b : List Step) :
    told logPages (a ++ b) = told logPages a ++ told logPages b := List.flatMap_append

def loggedPages (log : List Trace.Event) : List PageId :=
  log.filterMap fun
    | .visitingPage id .. => some id
    | _ => none

section log

variable {file : File} {trace : Trace.Switches} {f : Leaf → Callback σ Unit} {w w' : Walker σ}
  {u : Unit}

theorem log_play {s : Step}
    (h : s.play (Visitor.ofFile file trace fun l => Run.ofCallback (f l)) w = .ok u w') :
    w'.journal.log.toList = w.journal.log.toList ++ told trace.pages [s] := by
  cases s with
  | enter id =>
    cases h
    simp [told]
  | visit id depth header =>
    change Walk.ofRun (Run.logIf trace.pages (visiting depth id header)) w = _ at h
    cases hp : trace.pages <;> rw [hp] at h <;> cases h <;> simp [told]
  | again id =>
    cases h
    simp [told]
  | leaf l =>
    change Walk.ofRun (Run.ofCallback (f l)) w = _ at h
    unfold Walk.ofRun Run.ofCallback at h
    cases hf : f l w.journal.state with
    | error e s =>
      rw [hf] at h
      cases h
    | ok a s =>
      rw [hf] at h
      cases h
      simp [told]

theorem log_replay {steps : List Step}
    (h : replay (Visitor.ofFile file trace fun l => Run.ofCallback (f l)) steps w = .ok u w') :
    w'.journal.log.toList = w.journal.log.toList ++ told trace.pages steps := by
  induction steps generalizing w with
  | nil =>
    cases h
    simp [told]
  | cons s steps ih =>
    change (s.play _ >>= fun _ => replay _ steps) w = _ at h
    rw [bind_apply] at h
    have htold : told trace.pages (s :: steps) = told trace.pages [s] ++ told trace.pages steps :=
      told_append trace.pages [s] steps
    split at h
    case h_2 => cases h
    case h_1 u₁ w₁ hs =>
      rw [ih h, log_play hs, htold, List.append_assoc]

end log

end Ese.Tree
