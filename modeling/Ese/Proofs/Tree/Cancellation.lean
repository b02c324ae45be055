import Mathlib
import Ese.Proofs.Tree.Ledger
import Ese.Proofs.Tree.Order
/-!
Walks that are called off. A tree has one trail, whatever a callback makes of the entries. A
callback that refuses an entry has had the trail up to that entry, and nothing is done behind it: a
walk that is called off is the beginning of the walk that is not.
-/

namespace Ese.Tree

variable {σ τ : Type} {file : File} {trace : Trace.Switches}

/-! Walks under watch, along their trails -/

def Step.watch (v : Visitor σ) : Step → Walk (Watched σ) Unit
  | .enter id => fun w =>
    .ok () ⟨w.visited.insert id, ⟨w.journal.log, w.journal.state.read id⟩⟩
  | .visit id depth header => Walk.ofRun (Run.logIf v.logPages (visiting depth id header))
  | .again id => Walk.ofRun (Run.log (.alreadyVisited id))
  | .leaf l => Walk.ofRun (v.watched.onLeaf l)

/-- The steps are done, and noted; the last may have been refused. -/
structure Noted (steps : List Step) (w w' : Walker (Watched σ)) : Prop where
  visited : w'.visited = marked w.visited steps
  reads : w'.journal.state.reads = w.journal.state.reads ++ entered steps
  handed : w'.journal.state.handed = w.journal.state.handed ++ leaves steps

namespace Noted

variable {w w' w'' : Walker (Watched σ)} {a b : List Step}

theorem nothing (w : Walker (Watched σ)) : Noted [] w w := by
  constructor <;> simp

theorem append (h : Noted a w w') (h' : Noted b w' w'') : Noted (a ++ b) w w'' where
  visited := by rw [h'.visited, h.visited, marked_append]
  reads := by rw [h'.reads, h.reads, entered_append, List.append_assoc]
  handed := by rw [h'.handed, h.handed, leaves_append, List.append_assoc]

end Noted

section

variable {v : Visitor σ} {w : Walker (Watched σ)}

/-- The steps that are no leaf entries are done whatever the callback is. -/
theorem watch_quiet (v : Visitor σ) {s : Step} (hs : leaves [s] = []) (w : Walker (Watched σ)) :
    ∃ w', s.watch v w = .ok () w' ∧ Noted [s] w w' ∧
      w'.journal.state.state = w.journal.state.state := by
  cases s with
  | enter id =>
    refine ⟨_, rfl, ⟨?_, rfl, ?_⟩, rfl⟩
    · simp [marked]
    · simp [Watched.read]
  | visit id depth header =>
    obtain ⟨log, hlog⟩ := logIf_apply v.logPages (visiting depth id header) w.journal
    refine ⟨⟨w.visited, { w.journal with log }⟩, ?_, ⟨?_, ?_, ?_⟩, rfl⟩
    · simp only [Step.watch, Walk.ofRun, hlog]
    all_goals simp [marked]
  | again id =>
    refine ⟨w.tell (.alreadyVisited id), rfl, ⟨?_, ?_, ?_⟩, rfl⟩
    all_goals simp [marked, Walker.tell]
  | leaf l => cases hs

/-- An entry is noted also when it is refused. -/
theorem noted_hand (w : Walker (Watched σ)) (l : Leaf) (j : Journal σ) :
    Noted [.leaf l] w
      ⟨w.visited, ⟨j.log, { w.journal.state.hand l with state := j.state }⟩⟩ := by
  constructor <;> simp [marked, Watched.hand]

theorem watch_leaf (v : Visitor σ) (l : Leaf) (w : Walker (Watched σ)) :
    Step.watch v (.leaf l) w = match v.onLeaf l ⟨w.journal.log, w.journal.state.state⟩ with
      | .ok () j => .ok () ⟨w.visited, ⟨j.log, { w.journal.state.hand l with state := j.state }⟩⟩
      | .error e j =>
        .error e ⟨w.visited, ⟨j.log, { w.journal.state.hand l with state := j.state }⟩⟩ := by
  unfold Step.watch Walk.ofRun Visitor.watched Run.watched
  dsimp only
  cases v.onLeaf l ⟨w.journal.log, w.journal.state.state⟩ <;> rfl

end

theorem plays_watch (file : File) (trace : Trace.Switches) (onLeaf : Leaf → Run σ Unit) :
    Plays (Visitor.ofFile file trace onLeaf).watched file.readPage
      (Step.watch (Visitor.ofFile file trace onLeaf)) where
  marks s w w' := by
    intro u h
    rcases s.leaf_or_quiet with ⟨l, rfl⟩ | hs
    · simpa [marked] using Walk.visited_ofRun h
    · obtain ⟨w₁, hw₁, hnoted, -⟩ := watch_quiet (Visitor.ofFile file trace onLeaf) hs w
      rw [hw₁] at h
      cases h
      exact hnoted.visited
  enter id w := by
    rw [ofRun_readPage, bind_apply]
    cases file.readPage id <;> rfl
  visit _ _ _ := rfl
  again _ := rfl
  leaf _ := rfl

/-! Callbacks that refuse an entry -/

/-- Of these entries the callback takes `n`, and refuses the next one with `x`. What was logged
before makes no difference. -/
def Refuses (g : Leaf → Run σ Unit) (x : Error) : Nat → List Leaf → σ → Prop
  | _, [], _ => True
  | 0, l :: _, s => ∀ log, ∃ j, g l ⟨log, s⟩ = .error x j
  | n + 1, l :: ls, s => ∀ log, ∃ j, g l ⟨log, s⟩ = .ok () j ∧ Refuses g x n ls j.state

theorem refuses_of_total {f : Leaf → Run σ Unit} (hf : ∀ l j, ∃ j', f l j = .ok () j') (x : Error)
    (ls : List Leaf) (s : σ) : Refuses f x ls.length ls s := by
  induction ls generalizing s with
  | nil => trivial
  | cons l ls ih =>
    intro log
    obtain ⟨j, hj⟩ := hf l ⟨log, s⟩
    exact ⟨j, hj, ih j.state⟩

/-- What such a callback makes of the steps of a trail. -/
inductive CalledOff (v : Visitor σ) (x : Error) (n : Nat) (steps : List Step)
    (w : Walker (Watched σ)) : Prop where
  | never (w' : Walker (Watched σ)) (few : (leaves steps).length ≤ n)
    (all : steps.forM (Step.watch v) w = .ok () w') (noted : Noted steps w w')
  | at_entry (before : List Step) (l : Leaf) (after : List Step) (w' : Walker (Watched σ))
    (split : steps = before ++ .leaf l :: after) (taken : (leaves before).length = n)
    (stopped : steps.forM (Step.watch v) w = .error x w') (noted : Noted (before ++ [.leaf l]) w w')

theorem CalledOff.cons {v : Visitor σ} {x : Error} {n k : Nat} {s : Step} {steps : List Step}
    {w w' : Walker (Watched σ)} (hs : s.watch v w = .ok () w') (hnoted : Noted [s] w w')
    (hcount : k = n + (leaves [s]).length) (h : CalledOff v x n steps w') :
    CalledOff v x k (s :: steps) w := by
  have hleaves (rest : List Step) : leaves (s :: rest) = leaves [s] ++ leaves rest :=
    leaves_append [s] rest
  cases h with
  | never w'' few all noted =>
    refine .never w'' ?_ ?_ (hnoted.append noted)
    · rw [hleaves, List.length_append]
      omega
    · rw [forM_cons_apply, hs]
      exact all
  | at_entry before l after w'' split taken stopped noted =>
    refine .at_entry (s :: before) l after w'' ?_ ?_ ?_ (hnoted.append noted)
    · rw [split, List.cons_append]
    · rw [hleaves, List.length_append]
      omega
    · rw [forM_cons_apply, hs]
      exact stopped

theorem calledOff (file : File) (trace : Trace.Switches) {g : Leaf → Run σ Unit} {x : Error}
    (steps : List Step) :
    ∀ (n : Nat) (w : Walker (Watched σ)), Refuses g x n (leaves steps) w.journal.state.state →
      CalledOff (Visitor.ofFile file trace g) x n steps w := by
  induction steps with
  | nil => exact fun n w _ => .never w (Nat.zero_le n) rfl (.nothing w)
  | cons s steps ih =>
    intro n w hg
    rcases s.leaf_or_quiet with ⟨l, rfl⟩ | hs
    · have hl := watch_leaf (Visitor.ofFile file trace g) l w
      cases n with
      | zero =>
        obtain ⟨j, hj⟩ := hg w.journal.log
        simp only [Visitor.ofFile, hj] at hl
        refine .at_entry [] l steps _ rfl rfl ?_ (noted_hand w l j)
        rw [forM_cons_apply]
        simp only [Visitor.ofFile, hl]
      | succ n =>
        obtain ⟨j, hj, hrest⟩ := hg w.journal.log
        simp only [Visitor.ofFile, hj] at hl
        exact .cons hl (noted_hand w l j) rfl (ih n _ hrest)
    · obtain ⟨w', hw', hnoted, hstate⟩ := watch_quiet (Visitor.ofFile file trace g) hs w
      rw [leaves_cons_of_quiet hs] at hg
      exact .cons hw' hnoted (by rw [hs]; rfl) (ih n w' (hstate ▸ hg))

/-! The page of an entry is the last that was asked for -/

def Seated : Option PageId → List Step → Prop
  | _, [] => True
  | _, .enter id :: steps => Seated (some id) steps
  | last, .visit _ _ _ :: steps => Seated last steps
  | last, .again _ :: steps => Seated last steps
  | last, .leaf l :: steps => last = some l.page.id ∧ Seated last steps

namespace Seated

theorem append {last : Option PageId} {a b : List Step} (ha : Seated last a)
    (hb : ∀ last, Seated last b) : Seated last (a ++ b) := by
  induction a generalizing last with
  | nil => exact hb last
  | cons s a ih =>
    cases s with
    | enter id => exact ih (show Seated (some id) a from ha)
    | visit id depth header => exact ih (show Seated last a from ha)
    | again id => exact ih (show Seated last a from ha)
    | leaf l => exact ⟨ha.1, ih ha.2⟩

theorem map_leaf {id : PageId} {ls : List Leaf} (h : ∀ l ∈ ls, l.page.id = id) :
    Seated (some id) (ls.map .leaf) := by
  induction ls with
  | nil => trivial
  | cons l ls ih =>
    rw [List.forall_mem_cons] at h
    exact ⟨congrArg some h.1.symm, ih h.2⟩

theorem getLast?_entered {last : Option PageId} {before after : List Step} {l : Leaf}
    (h : Seated last (before ++ .leaf l :: after)) :
    ((entered before).getLast? <|> last) = some l.page.id := by
  induction before generalizing last with
  | nil => exact h.1
  | cons s before ih =>
    cases s with
    | enter id =>
      have hrest := ih (show Seated (some id) (before ++ .leaf l :: after) from h)
      cases hids : entered before with
      | nil => simpa [hids] using hrest
      | cons first rest => simpa [hids, List.getLast?_cons] using hrest
    | visit id depth header => exact ih (show Seated last (before ++ .leaf l :: after) from h)
    | again id => exact ih (show Seated last (before ++ .leaf l :: after) from h)
    | leaf m => exact ih h.2

end Seated

theorem pagewise_seated {read : Reader} (hread : ∀ id page, read id = .ok page → page.id = id) :
    Pagewise read fun _ steps => ∀ last, Seated last steps where
  nil _ _ := trivial
  append ha hb last := (ha last).append hb
  lost _ _ _ := trivial
  again _ _ := trivial
  page _ _ _ _ := Seated.map_leaf fun _ hl => page_of_mem_leafEntries hread hl

/-! Two walks -/

def Walker.unused (j : Journal σ) : Walker (Watched σ) :=
  { visited := {}, journal := { log := j.log, state := { state := j.state } } }

def Errand.answer (file : File) (trace : Trace.Switches) (e : Errand σ) (j : Journal σ) :
    Except Error Unit × Walker σ :=
  answerOf (e.walk file trace { visited := {}, journal := j })

def Errand.notes (file : File) (trace : Trace.Switches) (e : Errand σ) (j : Journal σ) :
    Except Error Unit × Walker (Watched σ) := answerOf (e.watched file trace (Walker.unused j))

/-- The entries that a walk with a fresh walker hands over, refused ones included. -/
def Errand.handed (file : File) (trace : Trace.Switches) (e : Errand σ) (j : Journal σ) :
    List Leaf := (e.notes file trace j).2.journal.state.handed

def Errand.reads (file : File) (trace : Trace.Switches) (e : Errand σ) (j : Journal σ) :
    List PageId := (e.notes file trace j).2.journal.state.reads

theorem Errand.answer_eq (file : File) (trace : Trace.Switches) (e : Errand σ) (j : Journal σ) :
    e.answer file trace j =
      ((e.notes file trace j).1, (e.notes file trace j).2.forget) := by
  have h := Errand.runEach_watched file trace [e] (Walker.unused j)
  obtain ⟨hanswer, hwalker⟩ := Prod.mk.inj h
  exact Prod.ext (List.singleton_inj.mp hanswer) hwalker

/-- What is left of a walk that is called off at an entry, next to one that is not. -/
structure Stopped (file : File) (trace : Trace.Switches) (whole : Errand σ) (j : Journal σ)
    (cut : Errand τ) (k : Journal τ) (x : Error) (n : Nat) (l : Leaf) : Prop where
  answer : (cut.answer file trace k).1 = .error x
  handed : cut.handed file trace k = (whole.handed file trace j).take (n + 1)
  reads : cut.reads file trace k <+: whole.reads file trace j
  /-- No page is asked for behind the one that the entry is on. -/
  last : (cut.reads file trace k).getLast? = some l.page.id
  visited : ∀ id ∈ (cut.answer file trace k).2.visited, id ∈ (whole.answer file trace j).2.visited
  page : l.page.id ∈ (cut.answer file trace k).2.visited

/-- A walk that ends before it is called off. -/
structure Finished (file : File) (trace : Trace.Switches) (whole : Errand σ) (j : Journal σ)
    (cut : Errand τ) (k : Journal τ) : Prop where
  answer : (cut.answer file trace k).1 = (whole.answer file trace j).1
  handed : cut.handed file trace k = whole.handed file trace j
  reads : cut.reads file trace k = whole.reads file trace j
  visited : (cut.answer file trace k).2.visited = (whole.answer file trace j).2.visited

/-- What a walk with a callback that refuses the entry behind the first `n` is, next to one with a
callback that refuses none. -/
structure Shortened (file : File) (trace : Trace.Switches) (whole : Errand σ) (j : Journal σ)
    (cut : Errand τ) (k : Journal τ) (x : Error) (n : Nat) : Prop where
  same_whole : whole.answer file trace j =
    ((whole.notes file trace j).1, (whole.notes file trace j).2.forget)
  same_cut : cut.answer file trace k =
    ((cut.notes file trace k).1, (cut.notes file trace k).2.forget)
  stopped : ∀ l, (whole.handed file trace j)[n]? = some l →
    Stopped file trace whole j cut k x n l
  finished : (whole.handed file trace j).length ≤ n → Finished file trace whole j cut k

/-- What a walk with a fresh walker comes to, when its steps were these. -/
structure Came (file : File) (trace : Trace.Switches) (e : Errand σ) (j : Journal σ)
    (answer : Except Error Unit) (steps : List Step) : Prop where
  answer : (e.answer file trace j).1 = answer
  visited : (e.answer file trace j).2.visited = marked {} steps
  handed : e.handed file trace j = leaves steps
  reads : e.reads file trace j = entered steps

section

variable {e : Errand σ} {j : Journal σ} {steps : List Step} {answer : Except Error Unit}

theorem Noted.came {w : Walker (Watched σ)} (h : Noted steps (Walker.unused j) w)
    (hnotes : e.notes file trace j = (answer, w)) : Came file trace e j answer steps where
  answer := by rw [e.answer_eq, hnotes]
  visited := by
    rw [e.answer_eq, hnotes]
    exact h.visited
  handed := by
    rw [Errand.handed, hnotes]
    exact h.handed
  reads := by
    rw [Errand.reads, hnotes]
    exact h.reads

variable (htrail : trail file.readPage e.root {} = (steps, answer))

include htrail

theorem notes_eq (trace : Trace.Switches) (j : Journal σ) : e.notes file trace j =
    answerOf ((steps.forM (Step.watch (Visitor.ofFile file trace e.onLeaf)) >>= fun _ =>
      conclude answer) (Walker.unused j)) := by
  have hwalk := Replays.walk (plays_watch file trace e.onLeaf) e.root (Walker.unused j)
  rw [Walker.unused, htrail] at hwalk
  exact congrArg answerOf hwalk

/-- A walk whose callback refuses an entry has come along its trail up to there. -/
theorem came_of_refuses (trace : Trace.Switches) {x : Error} {n : Nat}
    (hg : Refuses e.onLeaf x n (leaves steps) j.state) :
    (leaves steps).length ≤ n ∧ Came file trace e j answer steps ∨
      ∃ before l after, steps = before ++ .leaf l :: after ∧ (leaves before).length = n ∧
        Came file trace e j (.error x) (before ++ [.leaf l]) := by
  have hnotes := notes_eq htrail trace j
  rw [bind_apply] at hnotes
  cases calledOff file trace steps n (Walker.unused j) hg with
  | never w few all noted =>
    rw [all] at hnotes
    refine .inl ⟨few, noted.came ?_⟩
    rw [hnotes]
    cases answer <;> rfl
  | at_entry before l after w split taken stopped noted =>
    rw [stopped] at hnotes
    exact .inr ⟨before, l, after, split, taken, noted.came hnotes⟩

theorem came_of_total (hf : ∀ l j, ∃ j', e.onLeaf l j = .ok () j') :
    Came file trace e j answer steps := by
  have hrefuses := refuses_of_total hf .cancelled (leaves steps) j.state
  rcases came_of_refuses htrail trace hrefuses with
    ⟨-, hcame⟩ | ⟨before, l, after, hsplit, htaken, -⟩
  · exact hcame
  · -- there is no entry behind all entries
    rw [hsplit, leaves_append, leaves_leaf, List.length_append, List.length_cons] at htaken
    omega

end

theorem Seated.last_entered {root : PageId} {before after : List Step} {l : Leaf}
    {answer : Except Error Unit}
    (htrail : trail file.readPage root {} = (before ++ .leaf l :: after, answer)) :
    (entered before).getLast? = some l.page.id := by
  have hread : ∀ id page, file.readPage id = .ok page → page.id = id := fun _ _ => id_readPage
  have hseated := (pagewise_seated hread).trail root {} none
  rw [htrail] at hseated
  simpa using hseated.getLast?_entered

section

variable {e : Errand σ} {j : Journal σ} {c : Errand τ} {k : Journal τ} {steps : List Step}
  {answer : Except Error Unit}

theorem Came.stopped {before after : List Step} {l : Leaf} {x : Error}
    (h : Came file trace e j answer (before ++ .leaf l :: after))
    (hcut : Came file trace c k (.error x) (before ++ [.leaf l]))
    (hlast : (entered before).getLast? = some l.page.id) :
    Stopped file trace e j c k x (leaves before).length l where
  answer := hcut.answer
  handed := by
    have hleaves : leaves (before ++ .leaf l :: after) =
        leaves (before ++ [.leaf l]) ++ leaves after := by simp
    have hlength : (leaves (before ++ [.leaf l])).length = (leaves before).length + 1 := by simp
    rw [hcut.handed, h.handed, hleaves, ← hlength, List.take_left]
  reads := by
    rw [hcut.reads, h.reads]
    simp
  last := by
    rw [hcut.reads]
    simpa using hlast
  visited id hid := by
    rw [hcut.visited, mem_marked] at hid
    rw [h.visited, mem_marked]
    apply hid.imp_right
    simp only [entered_append, entered_leaf, entered_nil, List.append_nil]
    exact List.mem_append_left _
  page := by
    rw [hcut.visited, mem_marked]
    have hmem := List.mem_of_getLast? hlast
    simp [hmem]

theorem Came.finished (h : Came file trace e j answer steps)
    (hcut : Came file trace c k answer steps) : Finished file trace e j c k where
  answer := hcut.answer.trans h.answer.symm
  handed := hcut.handed.trans h.handed.symm
  reads := hcut.reads.trans h.reads.symm
  visited := hcut.visited.trans h.visited.symm

end

/-- A walk that is called off is the beginning of the walk that is not. -/
theorem shortened_walk (file : File) (trace : Trace.Switches) (root : PageId)
    {f : Leaf → Run σ Unit} (hf : ∀ l j, ∃ j', f l j = .ok () j') (j : Journal σ)
    {g : Leaf → Run τ Unit} (k : Journal τ) (x : Error) (n : Nat)
    (hg : Refuses g x n (Errand.handed file trace ⟨root, f⟩ j) k.state) :
    Shortened file trace ⟨root, f⟩ j ⟨root, g⟩ k x n := by
  rcases htrail : trail file.readPage root {} with ⟨steps, answer⟩
  have hwhole : Came file trace ⟨root, f⟩ j answer steps := came_of_total htrail hf
  rw [hwhole.handed] at hg
  have hcases := came_of_refuses (e := ⟨root, g⟩) (j := k) htrail trace hg
  refine ⟨Errand.answer_eq .., Errand.answer_eq .., ?_, ?_⟩
  · intro l hl
    rw [hwhole.handed] at hl
    rcases hcases with ⟨hfew, -⟩ | ⟨before, m, after, rfl, rfl, hcut⟩
    · have hin := (List.getElem?_eq_some_iff.mp hl).1
      omega
    · obtain rfl : m = l := by simpa using hl
      exact hwhole.stopped hcut (Seated.last_entered htrail)
  · intro hfew
    rw [hwhole.handed] at hfew
    rcases hcases with ⟨-, hcut⟩ | ⟨before, m, after, rfl, rfl, -⟩
    · exact hwhole.finished hcut
    · simp at hfew

def acceptLeaf (_ : Leaf) : Run Unit Unit := pure ()

def refuseLeaf (_ : Leaf) : Run Unit Unit := throw .cancelled

def forkLeaves : List Leaf :=
  [⟨forkStored 2 forkLeft, [], ⟨1, 0, [0, 0, 8]⟩⟩, ⟨forkStored 3 forkRight, [], ⟨1, 0, [0, 0, 9]⟩⟩]

theorem handed_fork : Errand.handed forkFile {} ⟨⟨1⟩, acceptLeaf⟩ ⟨#[], ()⟩ = forkLeaves := by
  obtain ⟨steps, htrail, -, hleaves⟩ := trail_uniformTree uniformTree_fork
  have hcame : Came forkFile {} ⟨⟨1⟩, acceptLeaf⟩ ⟨#[], ()⟩ (.ok ()) steps :=
    came_of_total htrail fun _ j => ⟨j, rfl⟩
  rw [hcame.handed, hleaves, leftLeaves_cons_cons]
  simp [leftLeaves, leafEntries_fork, forkLeaves]

/-- Called off at its first entry, the walk of the fork never comes to the right leaf page. -/
theorem shortened_fork :
    File.ofBytes (Build.File.ofPages ringLayout forkPages).build = .ok forkFile ∧
      Errand.handed forkFile {} ⟨⟨1⟩, acceptLeaf⟩ ⟨#[], ()⟩ = forkLeaves ∧
      Shortened forkFile {} ⟨⟨1⟩, acceptLeaf⟩ ⟨#[], ()⟩
        ⟨⟨1⟩, refuseLeaf⟩ ⟨#[], ()⟩ .cancelled 0 := by
  have haccept : ∀ l j, ∃ j', acceptLeaf l j = .ok () j' := fun _ j => ⟨j, rfl⟩
  refine ⟨Build.File.ofBytes_ofPages (by decide) fits_fork, handed_fork, ?_⟩
  refine shortened_walk forkFile {} ⟨1⟩ haccept _ _ _ _ ?_
  rw [handed_fork]
  exact fun log => ⟨⟨log, ()⟩, rfl⟩

end Ese.Tree
