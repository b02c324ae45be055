import Mathlib
import Ese.Proofs.Tree.Harvest
import Ese.Proofs.Tree.Watch
/-!
The ledger of a walker: whatever the walks, no page is asked for twice and no entry is handed over
twice, and a walk that fails has asked for at most one page that cannot be read. This is kept page
by page; that the entries of a page are new follows from the page being new.
-/

namespace Ese.Tree

variable {σ α β : Type} {file : File} {w w' : Walker (Watched σ)}

/-- What the notes of a walker come to, at any time. -/
structure Ledger (w : Walker (Watched σ)) : Prop where
  reads : w.journal.state.reads.Nodup
  visited : ∀ id, id ∈ w.visited ↔ id ∈ w.journal.state.reads
  valid : ∀ id ∈ w.journal.state.reads, id.isValid
  handed : (w.journal.state.handed.map Leaf.place).Nodup
  pages : ∀ l ∈ w.journal.state.handed, l.page.id ∈ w.journal.state.reads

def unreadable (file : File) (w : Walker (Watched σ)) : Nat :=
  w.journal.state.reads.countP fun id => !(file.readPage id).isOk

/-- The ledger is kept, and `failures` more pages at most cannot be read. -/
structure Extends (file : File) (failures : Nat) (w w' : Walker (Watched σ)) : Prop where
  ledger : Ledger w'
  reads : w.journal.state.reads <+: w'.journal.state.reads
  unreadable : unreadable file w' ≤ unreadable file w + failures

namespace Extends

theorem refl (h : Ledger w) (failures : Nat) : Extends file failures w w :=
  ⟨h, List.prefix_rfl, Nat.le_add_right _ _⟩

theorem trans {w'' : Walker (Watched σ)} {m n : Nat} (h : Extends file m w w')
    (h' : Extends file n w' w'') : Extends file (m + n) w w'' where
  ledger := h'.ledger
  reads := h.reads.trans h'.reads
  unreadable := by
    have hfirst := h.unreadable
    have hsecond := h'.unreadable
    omega

end Extends

/-- What a part of a walk may do to a walker: only one that fails may ask for an unreadable page. -/
def Keeps (file : File) (w : Walker (Watched σ)) :
    EStateM.Result Error (Walker (Watched σ)) α → Prop
  | .ok _ w' => Extends file 0 w w'
  | .error _ w' => Extends file 1 w w'

def Sound (file : File) (a : Walk (Watched σ) α) : Prop := ∀ w, Ledger w → Keeps file w (a w)

theorem Keeps.after {r : EStateM.Result Error (Walker (Watched σ)) α} (h : Extends file 0 w w')
    (h' : Keeps file w' r) : Keeps file w r := by
  rcases r with ⟨x, w''⟩ | ⟨e, w''⟩
  · exact h.trans h'
  · exact (h.trans h' :)

theorem Keeps.bind {a : Walk (Watched σ) α} {f : α → Walk (Watched σ) β}
    (h : Keeps file w (a w)) (hf : ∀ x, Sound file (f x)) : Keeps file w ((a >>= f) w) := by
  rw [bind_apply]
  rcases ha : a w with ⟨x, w'⟩ | ⟨e, w'⟩
  · rw [ha] at h
    exact Keeps.after h (hf x w' h.ledger)
  · rw [ha] at h
    exact h

namespace Sound

theorem pure (x : α) : Sound file (pure x : Walk (Watched σ) α) := fun _ h => .refl h 0

theorem throw (e : Error) : Sound file (throw e : Walk (Watched σ) α) := fun _ h => .refl h 1

theorem lift (x : Except DecodeError α) : Sound file (liftM x : Walk (Watched σ) α) := by
  rcases x with e | x
  · exact throw _
  · exact pure x

theorem bind {a : Walk (Watched σ) α} {f : α → Walk (Watched σ) β} (h : Sound file a)
    (hf : ∀ x, Sound file (f x)) : Sound file (a >>= f) := fun w hw => (h w hw).bind hf

theorem forM {γ : Type} {f : γ → Walk (Watched σ) Unit} (hf : ∀ x, Sound file (f x)) (xs : List γ) :
    Sound file (xs.forM f) := by
  induction xs with
  | nil => exact pure ()
  | cons x xs ih => exact bind (hf x) fun _ => ih

end Sound

/-! One page -/

/-- The page has been asked for, and none of its entries was handed over yet. -/
structure Fresh (id : PageId) (w : Walker (Watched σ)) : Prop where
  read : id ∈ w.journal.state.reads
  handed : ∀ l ∈ w.journal.state.handed, l.page.id ≠ id

section

variable {v : Visitor σ} {page : Page} {id : PageId}

/-- The notes when a page is asked for. -/
theorem Ledger.read (h : Ledger w) (hv : id.isValid) (hnew : id ∉ w.visited)
    (hvisited : w'.visited = w.visited.insert id)
    (hreads : w'.journal.state.reads = w.journal.state.reads ++ [id])
    (hhanded : w'.journal.state.handed = w.journal.state.handed) : Ledger w' ∧ Fresh id w' := by
  have hid : id ∉ w.journal.state.reads := mt (h.visited id).mpr hnew
  refine ⟨⟨?_, ?_, ?_, ?_, ?_⟩, ?_, ?_⟩
  · rw [hreads]
    exact List.nodup_append.mpr ⟨h.reads, List.nodup_singleton id, by
      rintro p hp q hq rfl
      exact hid (List.mem_singleton.mp hq ▸ hp)⟩
  · intro p
    rw [hvisited, hreads, Std.HashSet.mem_insert, List.mem_append, List.mem_singleton, h.visited,
      beq_iff_eq, or_comm, eq_comm]
  · rw [hreads]
    intro p hp
    rcases List.mem_append.mp hp with hp | hp
    · exact h.valid p hp
    · exact List.mem_singleton.mp hp ▸ hv
  · rw [hhanded]
    exact h.handed
  · rw [hhanded, hreads]
    exact fun l hl => List.mem_append_left _ (h.pages l hl)
  · rw [hreads]
    exact List.mem_append_right _ List.mem_cons_self
  · rw [hhanded]
    rintro l hl rfl
    exact hid (h.pages l hl)

/-- The notes when an entry of a page is handed over. -/
theorem Ledger.hand (h : Ledger w) {l : Leaf} (hread : l.page.id ∈ w.journal.state.reads)
    (hnew : l.place ∉ w.journal.state.handed.map Leaf.place) (hvisited : w'.visited = w.visited)
    (hreads : w'.journal.state.reads = w.journal.state.reads)
    (hhanded : w'.journal.state.handed = w.journal.state.handed ++ [l]) : Ledger w' where
  reads := hreads ▸ h.reads
  visited := by rw [hvisited, hreads]; exact h.visited
  valid := hreads ▸ h.valid
  handed := by
    rw [hhanded, List.map_append]
    exact List.nodup_append.mpr ⟨h.handed, List.nodup_singleton _, by
      rintro p hp q hq rfl
      exact hnew (List.mem_singleton.mp hq ▸ hp)⟩
  pages := by
    rw [hhanded, hreads]
    intro m hm
    rcases List.mem_append.mp hm with hm | hm
    · exact h.pages m hm
    · exact List.mem_singleton.mp hm ▸ hread

theorem keeps_leaves {descend : PageId → Walk (Watched σ) Unit} (hleaf : page.header.isLeaf)
    (external : TaggedValue) (entries : List TaggedValue) (hw : Ledger w)
    (hread : page.id ∈ w.journal.state.reads) (hnodup : (entries.map (·.index)).Nodup)
    (hnew : ∀ value ∈ entries, (page.id, value.index) ∉ w.journal.state.handed.map Leaf.place) :
    Keeps file w (entries.forM (v.watched.walkEntry descend page external) w) := by
  induction entries generalizing w with
  | nil => exact .refl hw 0
  | cons value entries ih =>
    obtain ⟨hfirst, hnodup⟩ := List.nodup_cons.mp hnodup
    rw [forM_cons_apply]
    have hentry : v.watched.walkEntry descend page external value w =
        Walk.ofRun (Run.watched (.hand ⟨page, external.data, value⟩)
          (v.onLeaf ⟨page, external.data, value⟩)) w := by
      rw [Visitor.walkEntry, if_pos hleaf]
      rfl
    rw [hentry]
    unfold Walk.ofRun Run.watched
    dsimp only
    have hledger : ∀ log state, Ledger (σ := σ) ⟨w.visited, log,
        { Watched.hand ⟨page, external.data, value⟩ w.journal.state with state }⟩ :=
      fun log state => hw.hand (l := ⟨page, external.data, value⟩) hread
        (hnew value List.mem_cons_self) rfl rfl rfl
    rcases v.onLeaf ⟨page, external.data, value⟩ ⟨w.journal.log, w.journal.state.state⟩ with
      ⟨u, j⟩ | ⟨e, j⟩
    · have hstep : Extends file 0 w ⟨w.visited, j.log,
          { Watched.hand ⟨page, external.data, value⟩ w.journal.state with state := j.state }⟩ :=
        ⟨hledger _ _, List.prefix_rfl, le_rfl⟩
      refine Keeps.after hstep (ih (hledger _ _) hread hnodup fun other hother => ?_)
      change (page.id, other.index) ∉ (w.journal.state.handed ++ _).map Leaf.place
      rw [List.map_append, List.mem_append, not_or]
      refine ⟨hnew other (List.mem_cons_of_mem _ hother), fun h => hfirst ?_⟩
      have hindex : other.index = value.index := (Prod.mk.inj (List.mem_singleton.mp h)).2
      exact List.mem_map.mpr ⟨other, hother, hindex⟩
    · exact ⟨hledger _ _, List.prefix_rfl, Nat.le_add_right _ _⟩

theorem keeps_finish {descend rest : PageId → Walk (Watched σ) Unit}
    (hd : ∀ id, Sound file (descend id)) (hrest : ∀ id, Sound file (rest id)) (hw : Ledger w)
    (hfresh : Fresh page.id w) : Keeps file w (v.watched.finish descend rest page w) := by
  unfold Visitor.finish
  rcases hvalues : page.values with e | values
  · exact .refl hw 1
  change Keeps file w ((v.watched.walkValues descend page values >>= _) w)
  refine Keeps.bind ?_ ?_
  · rcases values with _ | ⟨external, entries⟩
    · exact .refl hw 0
    refine Keeps.bind ?_ fun _ => Sound.pure _
    by_cases hleaf : page.header.isLeaf
    · have hnodup : ((external :: entries).map (·.index)).Nodup := by
        rw [index_values hvalues]
        exact List.nodup_range
      refine keeps_leaves hleaf external entries hw hfresh.read (List.nodup_cons.mp hnodup).2 ?_
      intro value _ h
      obtain ⟨l, hl, hplace⟩ := List.mem_map.mp h
      exact hfresh.handed l hl (Prod.mk.inj hplace).1
    · refine Sound.forM (fun value => ?_) entries w hw
      unfold Visitor.walkEntry
      rw [if_neg hleaf]
      exact (Sound.lift _).bind fun entry => hd entry.child
  · rintro (_ | next)
    · exact Sound.pure ()
    · exact hrest next

end

theorem ofRun_readPage (trace : Trace.Switches) (onLeaf : Leaf → Run σ Unit) (id : PageId)
    (w : Walker (Watched σ)) :
    Walk.ofRun ((Visitor.ofFile file trace onLeaf).watched.readPage id) w =
      match file.readPage id with
      | .ok page => .ok page ⟨w.visited, ⟨w.journal.log, w.journal.state.read id⟩⟩
      | .error e => .error (.decode e) ⟨w.visited, ⟨w.journal.log, w.journal.state.read id⟩⟩ := by
  have hread : (Visitor.ofFile file trace onLeaf).watched.readPage id =
      Run.watched (.read id) (liftM (file.readPage id) : Run σ Page) := rfl
  rw [hread]
  cases file.readPage id <;> rfl

theorem sound_page {trace : Trace.Switches} {onLeaf : Leaf → Run σ Unit} (depth : Nat) {id : PageId}
    {descend rest : PageId → Walk (Watched σ) Unit} (hv : id.isValid)
    (hd : ∀ id, Sound file (descend id)) (hrest : ∀ id, Sound file (rest id)) :
    Sound file ((Visitor.ofFile file trace onLeaf).watched.visit depth id
      ((Visitor.ofFile file trace onLeaf).watched.finish descend rest)) := by
  intro w hw
  by_cases hold : id ∈ w.visited
  · rw [Visitor.visit_old hold]
    exact ⟨⟨hw.reads, hw.visited, hw.valid, hw.handed, hw.pages⟩, List.prefix_rfl, le_rfl⟩
  rw [Visitor.visit_new hold, bind_apply]
  have hread : ∀ log, Ledger (σ := σ) ⟨w.visited.insert id, ⟨log, w.journal.state.read id⟩⟩ ∧
      Fresh id (σ := σ) ⟨w.visited.insert id, ⟨log, w.journal.state.read id⟩⟩ :=
    fun log => hw.read hv hold rfl rfl rfl
  have hextends : ∀ log, Extends (σ := σ) file (if (file.readPage id).isOk then 0 else 1) w
      ⟨w.visited.insert id, ⟨log, w.journal.state.read id⟩⟩ := by
    intro log
    refine ⟨(hread log).1, List.prefix_append _ _, ?_⟩
    unfold unreadable Watched.read
    rw [List.countP_append, List.countP_singleton]
    cases (file.readPage id).isOk <;> exact le_rfl
  rw [ofRun_readPage]
  rcases hpage : file.readPage id with e | page
  · rw [hpage] at hextends
    exact hextends w.journal.log
  · rw [hpage] at hextends
    obtain rfl := id_readPage hpage
    -- logging is no part of the notes
    obtain ⟨log, hlog⟩ := logIf_apply (σ := Watched σ) trace.pages
      (visiting depth page.id page.header) ⟨w.journal.log, w.journal.state.read page.id⟩
    dsimp only
    rw [bind_apply, Walk.ofRun, Visitor.watched, Visitor.ofFile, hlog]
    exact Keeps.after (hextends log) (keeps_finish hd hrest (hread log).1 (hread log).2)

/-- Whole walks keep the ledger, whatever the callback does. -/
theorem sound_walk (trace : Trace.Switches) (onLeaf : Leaf → Run σ Unit) (root : PageId) :
    Sound file ((Visitor.ofFile file trace onLeaf).watched.walk root) := by
  have hrespects : Respects (Visitor.ofFile file trace onLeaf).watched
      (Visitor.ofFile file trace onLeaf).watched fun a _ => Sound file a := {
    done := Sound.pure ()
    seq := fun ha hb => Sound.bind ha fun _ => hb
    deep := fun start => Sound.throw _
    page := fun depth _ _ _ _ _ hv hd hrest => sound_page depth hv hd hrest }
  exact hrespects.walk (fun _ => Sound.throw _) root

/-! Walks one after the other -/

def failedWalks (answers : List (Except Error Unit)) : Nat := answers.countP fun a => !a.isOk

theorem extends_answerOf {a : Walk (Watched σ) Unit} (h : Sound file a) (hw : Ledger w) :
    Extends file (failedWalks [(answerOf (a w)).1]) w (answerOf (a w)).2 := by
  have hkeeps := h w hw
  rcases ha : a w with ⟨u, w'⟩ | ⟨e, w'⟩ <;>
  · rw [ha] at hkeeps
    exact hkeeps

theorem extends_runEach {walks : List (Walk (Watched σ) Unit)} (h : ∀ a ∈ walks, Sound file a)
    (hw : Ledger w) : Extends file (failedWalks (runEach walks w).1) w (runEach walks w).2 := by
  induction walks generalizing w with
  | nil => exact .refl hw 0
  | cons a walks ih =>
    have hfirst := extends_answerOf (h a List.mem_cons_self) hw
    have hrest := ih (fun b hb => h b (List.mem_cons_of_mem a hb)) hfirst.ledger
    rw [runEach_cons]
    have hcount : failedWalks ((answerOf (a w)).1 :: (runEach walks (answerOf (a w)).2).1) =
        failedWalks [(answerOf (a w)).1] + failedWalks (runEach walks (answerOf (a w)).2).1 := by
      rw [failedWalks, ← List.singleton_append, List.countP_append]
      rfl
    rw [hcount]
    exact hfirst.trans hrest

end Ese.Tree
