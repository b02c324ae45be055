import Mathlib
import Ese.Proofs.Database.Simulation
import Ese.Proofs.Tree.Telling
/-!
Tracing only adds log events. Under any switches an image opens to the same database and a dump
hands over the same rows and answers the same. The log is that of verbose tracing without the events
whose switch is off, and when pages are logged each walk tells of just the pages that it read.
-/

namespace Ese

open Ese.Tree

variable {σ : Type}

namespace Trace

/-- The log without the events whose switch is off. -/
def Switches.sift (t : Switches) (log : Array Event) : Array Event := log.filter t.keeps

theorem Switches.sift_empty (t : Switches) : t.sift #[] = #[] := by simp [sift]

theorem keeps_verbose (e : Event) : Switches.verbose.keeps e = true := by cases e <;> rfl

theorem sifts_sift (t : Switches) : Sifts t.sift .verbose t := by
  intro e log
  rw [keeps_verbose, if_pos rfl]
  unfold Switches.sift
  split
  · exact Array.filter_push_of_pos ‹_› (by simp)
  · exact Array.filter_push_of_neg ‹_› (by simp)

end Trace

/-! The callbacks of the reader log no pages -/

theorem Trace.Event.Plain.loggedPages_eq {e : Trace.Event} (h : e.Plain) :
    loggedPages [e] = [] := by
  have hplain := h {}
  cases e with
  | visitingPage => cases hplain
  | _ => rfl

theorem Catalog.reticent_onLeaf (trace : Trace.Switches) (l : Leaf) :
    Reticent (onLeaf trace l) := by
  unfold onLeaf
  split
  case isFalse => exact Reticent.pure ()
  refine (Reticent.lift _).bind fun _ => (Reticent.lift _).bind fun entry =>
    (Reticent.logIf rfl _).bind fun _ j => ?_
  have hremarks : ∀ e ∈ j.state.remarks entry, loggedPages [e] = [] := fun _ he =>
    (Builder.plain_remarks he).loggedPages_eq
  have hrest := (Reticent.forM_log hremarks).bind fun _ =>
    (Reticent.lift (j.state.push entry)).bind fun builder =>
      ((fun _ => rfl : Reticent (modify fun j => { j with state := builder })))
  exact hrest j

theorem LongValues.reticent_onLeaf (trace : Trace.Switches) (table : Table) (l : Leaf) :
    Reticent (onLeaf trace table l) :=
  (Reticent.lift l.split).bind fun _ => (Reticent.logIf rfl _).bind fun _ _ => rfl

theorem Dump.reticent_onLeaf (schema : Record.Schema) (onRow : Row → Callback σ Unit) (l : Leaf) :
    Reticent (onLeaf schema onRow l) := by
  have hremarks (draft : Record.Draft) : ∀ e ∈ draft.events, loggedPages [e] = [] :=
    fun _ he => (draft.plain_events he).loggedPages_eq
  have hdecode : Reticent (decodeLeaf schema l : Run (Dump σ) _) := by
    unfold decodeLeaf
    split
    · exact Reticent.pure _
    · split <;> exact (Reticent.forM_log (hremarks _)).bind fun _ => Reticent.pure _
  unfold onLeaf
  split
  case isFalse => exact Reticent.pure ()
  refine hdecode.bind fun decoded => ?_
  cases decoded with
  | ok row => exact (Reticent.ofCallback _).bind fun _ => Reticent.ofCallback _
  | error reason => exact (Reticent.log rfl).bind fun _ => Reticent.ofCallback _

/-! Runs -/

def Database.opened :
    EStateM.Result Error (Array Trace.Event) Database → Except Error (File × Catalog)
  | .ok db _ => .ok (db.file, db.catalog)
  | .error e _ => .error e

/-- The caller, with a note of each row that it is given, also of one that it refuses. -/
def Dump.noting (onRow : Row → Callback σ Unit) (row : Row) :
    Callback (List Row × σ) Unit := fun s =>
  match onRow row s.2 with
  | .ok () s' => .ok () (s.1 ++ [row], s')
  | .error e s' => .error e (s.1 ++ [row], s')

def Database.rowsGiven (source : ByteArray) (trace : Trace.Switches) (name : String)
    (onRow : Row → Callback σ Unit) (start : σ) : List Row :=
  (stateAfter (session source trace name (Dump.noting onRow) ⟨#[], ([], start)⟩)).state.1

theorem Dump.seen_noting (onRow : Row → Callback σ Unit) (row : Row) :
    Seen Prod.snd (noting onRow row) (onRow row) := by
  intro s
  unfold noting
  cases onRow row s.2 <;> rfl

theorem Run.onState_mapState {α : Type} {k : Array Trace.Event → Array Trace.Event}
    (r : EStateM.Result Error (Journal σ) α) :
    Run.onState (mapState (Journal.via k id) r) = Run.onState r := by
  cases r <;> rfl

theorem stateAfter_mapState {τ α : Type} {p : σ → τ} (r : EStateM.Result Error σ α) :
    stateAfter (mapState p r) = p (stateAfter r) := by
  cases r <;> rfl

/-- The walks of a visitor, wherever they start and whatever was visited before, tell of the pages
that they read. -/
def Tree.Visitor.TellsPages (v : Visitor σ) (read : Reader) : Prop :=
  ∀ root w, Tells read (v.asked root w) w (stateAfter (v.walk root w))

structure TellsPages (file : File) : Prop where
  catalog : (Visitor.ofFile file .verbose (Catalog.onLeaf .verbose)).TellsPages file.readPage
  longValues : ∀ table,
    (Visitor.ofFile file .verbose (LongValues.onLeaf .verbose table)).TellsPages file.readPage
  rows : ∀ {σ : Type} (schema : Record.Schema) (onRow : Row → Callback σ Unit),
    (Visitor.ofFile file .verbose (Dump.onLeaf schema onRow)).TellsPages file.readPage
  own : ∀ {σ : Type} (f : Leaf → Callback σ Unit),
    (Visitor.ofFile file .verbose fun l => Run.ofCallback (f l)).TellsPages file.readPage

/-- What tracing does to the runs on an image. -/
structure TracingOnlyLogs (source : ByteArray) : Prop where
  /-- The file and the catalog, or the error, do not depend on the switches. -/
  database : ∀ t t', Database.opened (Database.open? source t #[]) =
    Database.opened (Database.open? source t' #[])
  openLog : ∀ t : Trace.Switches, stateAfter (Database.open? source t #[]) =
    t.sift (stateAfter (Database.open? source .verbose #[]))
  /-- Nor does the answer of a run, or what becomes of the caller. -/
  answer : ∀ {σ : Type} t t' name (onRow : Row → Callback σ Unit) start,
    Run.onState (Database.session source t name onRow ⟨#[], start⟩) =
      Run.onState (Database.session source t' name onRow ⟨#[], start⟩)
  rows : ∀ {σ : Type} t t' name (onRow : Row → Callback σ Unit) start,
    Database.rowsGiven source t name onRow start = Database.rowsGiven source t' name onRow start
  /-- Noting the rows makes no difference to a run. -/
  noting : ∀ {σ : Type} t name (onRow : Row → Callback σ Unit),
    Seen (Journal.via id Prod.snd) (Database.session source t name (Dump.noting onRow))
      (Database.session source t name onRow)
  log : ∀ {σ : Type} (t : Trace.Switches) name (onRow : Row → Callback σ Unit) start,
    (stateAfter (Database.session source t name onRow ⟨#[], start⟩)).log =
      t.sift (stateAfter (Database.session source .verbose name onRow ⟨#[], start⟩)).log
  /-- The same holds of any dump of a database that is open already, one after the other. -/
  dump : ∀ {σ : Type} (db : Database) (t : Trace.Switches) name (onRow : Row → Callback σ Unit) j,
    (db.under t).dumpTable name onRow ⟨t.sift j.log, j.state⟩ =
      mapState (Journal.via t.sift id) ((db.under .verbose).dumpTable name onRow j)
  pages : ∀ file, TellsPages file

theorem tellsPages (file : File) : TellsPages file where
  catalog := tells_walk rfl (Catalog.reticent_onLeaf _)
  longValues table := tells_walk rfl (LongValues.reticent_onLeaf _ table)
  rows schema onRow := tells_walk rfl (Dump.reticent_onLeaf schema onRow)
  own f := tells_walk rfl fun l => Reticent.ofCallback (f l)

section

variable (source : ByteArray) (t : Trace.Switches) (name : String) (onRow : Row → Callback σ Unit)
  (start : σ)

theorem Database.open_sift : open? source t #[] = match open? source .verbose #[] with
    | .ok db log => .ok (db.under t) (t.sift log)
    | .error e log => .error e (t.sift log) := by
  have hopen := open_under (Trace.sifts_sift t) source #[]
  rwa [t.sift_empty] at hopen

theorem Database.session_sift : session source t name onRow ⟨#[], start⟩ =
    mapState (Journal.via t.sift id) (session source .verbose name onRow ⟨#[], start⟩) := by
  have hseen := seen_session (Trace.sifts_sift t) (fun row => Seen.refl (onRow row)) source name
  refine hseen.answer ?_
  rw [Journal.via, t.sift_empty, id]

theorem Database.onState_session : Run.onState (session source t name onRow ⟨#[], start⟩) =
    Run.onState (session source .verbose name onRow ⟨#[], start⟩) := by
  rw [session_sift, Run.onState_mapState]

theorem Database.rowsGiven_verbose :
    rowsGiven source t name onRow start = rowsGiven source .verbose name onRow start := by
  unfold rowsGiven
  rw [session_sift, stateAfter_mapState, Journal.state_via, id]

end

/-- Tracing adds nothing but log events. -/
theorem tracingOnlyLogs (source : ByteArray) : TracingOnlyLogs source where
  database t t' := by
    rw [Database.open_sift source t, Database.open_sift source t']
    cases Database.open? source .verbose #[] <;> rfl
  openLog t := by
    rw [Database.open_sift source t]
    cases Database.open? source .verbose #[] <;> rfl
  answer t t' name onRow start := by
    rw [Database.onState_session source t, Database.onState_session source t']
  rows t t' name onRow start := by
    rw [Database.rowsGiven_verbose source t, Database.rowsGiven_verbose source t']
  noting t name onRow :=
    Database.seen_session (Trace.sifts_id t) (Dump.seen_noting onRow) source name
  log t name onRow start := by
    rw [Database.session_sift source t, stateAfter_mapState, Journal.log_via]
  dump db t name onRow j := (Database.seen_dumpTable (Trace.sifts_sift t)
    (fun row => Seen.refl (onRow row)) db name j).symm
  pages := tellsPages

end Ese
