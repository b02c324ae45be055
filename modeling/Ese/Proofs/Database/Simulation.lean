import Mathlib
import Ese.Database
import Ese.Proofs.Tree.Seen
/-!
Runs side by side. The reader does the same whatever the switches are and whoever the rows are for:
with other switches it logs fewer or more of the events that have a switch, and a caller whose state
is a picture of another's is left with that picture.
-/

namespace Ese

open Ese.Tree

namespace Trace

/-- The event is told under the switches. Three kinds of events have a switch. -/
def Switches.keeps (t : Switches) : Event → Bool
  | .visitingPage .. => t.pages
  | .catalogRecord .. => t.catalog
  | .longValueSegment .. => t.longValues
  | _ => true

/-- What becomes of the log of a run under the first switches is its log under the second. -/
def Sifts (k : Array Event → Array Event) (t t' : Switches) : Prop :=
  ∀ e log, k (if t.keeps e then log.push e else log) = if t'.keeps e then (k log).push e else k log

theorem sifts_id (t : Switches) : Sifts id t t := fun _ _ => rfl

/-- What was logged before stays in front. -/
theorem sifts_append (told : Array Event) (t : Switches) : Sifts (told ++ ·) t t := by
  intro e log
  cases t.keeps e
  · rfl
  · exact Array.append_push

def Event.Plain (e : Event) : Prop := ∀ t : Switches, t.keeps e = true

theorem Sifts.push {k : Array Event → Array Event} {t t' : Switches} (h : Sifts k t t') {e : Event}
    (he : e.Plain) (log : Array Event) : k (log.push e) = (k log).push e := by
  simpa only [he t, he t', if_true] using h e log

end Trace

variable {σ τ α : Type} {k : Array Trace.Event → Array Trace.Event} {t t' : Trace.Switches}
  {q : σ → τ}

def Journal.via (k : Array Trace.Event → Array Trace.Event) (q : σ → τ) (j : Journal σ) :
    Journal τ :=
  ⟨k j.log, q j.state⟩

@[simp] theorem Journal.log_via (j : Journal σ) : (j.via k q).log = k j.log := rfl

@[simp] theorem Journal.state_via (j : Journal σ) : (j.via k q).state = q j.state := rfl

namespace Seen

theorem logIf (h : Trace.Sifts k t t') (e : Trace.Event) :
    Seen (Journal.via k q) (Run.logIf (t.keeps e) e) (Run.logIf (t'.keeps e) e) := by
  intro j
  have hlog : ∀ (wanted : Bool) (s : σ) (log : Array Trace.Event), Run.logIf wanted e ⟨log, s⟩ =
      .ok () ⟨if wanted then log.push e else log, s⟩ := fun wanted _ _ => by cases wanted <;> rfl
  have hlog' : ∀ (wanted : Bool) (s : τ) (log : Array Trace.Event), Run.logIf wanted e ⟨log, s⟩ =
      .ok () ⟨if wanted then log.push e else log, s⟩ := fun wanted _ _ => by cases wanted <;> rfl
  rw [Journal.via, hlog', ← h e j.log, show j = ⟨j.log, j.state⟩ from rfl, hlog]
  rfl

theorem log (h : Trace.Sifts k t t') {e : Trace.Event} (he : e.Plain) :
    Seen (Journal.via k q) (Run.log e) (Run.log e) := by
  have hlog := logIf (q := q) h e
  rwa [he t, he t'] at hlog

theorem forM_log (h : Trace.Sifts k t t') {events : List Trace.Event} (he : ∀ e ∈ events, e.Plain) :
    Seen (Journal.via k q) (events.forM Run.log) (events.forM Run.log) := by
  induction events with
  | nil => exact pure ()
  | cons e events ih =>
    exact bind (log h (he e List.mem_cons_self)) fun _ =>
      ih fun e' he' => he e' (List.mem_cons_of_mem e he')

theorem ofCallback {c : Callback σ α} {c' : Callback τ α} (h : Seen q c c') :
    Seen (Journal.via k q) (Run.ofCallback c) (Run.ofCallback c') := by
  intro j
  unfold Run.ofCallback Journal.via
  dsimp only
  rw [← h j.state]
  cases c j.state <;> rfl

theorem ofLogged {c c' : Logged α} (h : Seen k c c') :
    Seen (Journal.via k q) (Run.ofLogged c) (Run.ofLogged c') := by
  intro j
  unfold Run.ofLogged Journal.via
  dsimp only
  rw [← h j.log]
  cases c j.log <;> rfl

theorem modify {f : σ → σ} {f' : τ → τ} (h : ∀ s, q (f s) = f' (q s)) :
    Seen q (modify f : Callback σ Unit) (modify f' : Callback τ Unit) := by
  intro s
  exact congrArg (EStateM.Result.ok ()) (h s)

theorem visitor (h : Trace.Sifts k t t') (file : File) {onLeaf : Leaf → Run σ Unit}
    {onLeaf' : Leaf → Run τ Unit} (hleaf : ∀ l, Seen (Journal.via k q) (onLeaf l) (onLeaf' l)) :
    (Visitor.ofFile file t onLeaf).SeenAs (Journal.via k q) (Visitor.ofFile file t' onLeaf') where
  read id := lift (file.readPage id)
  visiting depth id header := logIf h (visiting depth id header)
  again _ := log h fun _ => rfl
  leaf := hleaf

end Seen

/-! The catalog -/

theorem Catalog.Builder.plain_remarks {b : Builder} {entry : Entry} {e : Trace.Event}
    (h : e ∈ b.remarks entry) : e.Plain := by
  unfold remarks at h
  split at h
  · split at h
    · cases List.mem_singleton.mp h
      exact fun _ => rfl
    · exact absurd h List.not_mem_nil
  · cases List.mem_singleton.mp h
    exact fun _ => rfl
  · exact absurd h List.not_mem_nil

theorem Catalog.seen_onLeaf (h : Trace.Sifts k t t') (l : Leaf) :
    Seen (Journal.via k id) (onLeaf t l) (onLeaf t' l) := by
  unfold onLeaf
  split
  case isFalse => exact Seen.pure ()
  refine (Seen.lift _).bind fun _ => (Seen.lift _).bind fun entry =>
    (Seen.logIf h (.catalogRecord l.page.id l.value.index entry)).bind fun _ j => ?_
  have hplain : ∀ e ∈ j.state.remarks entry, e.Plain := fun _ he => j.state.plain_remarks he
  have hrest := (Seen.forM_log (q := id) h hplain).bind fun _ =>
    (Seen.lift (j.state.push entry)).bind fun builder =>
      (Seen.modify fun _ => rfl : Seen (Journal.via k id)
        (modify fun j => { j with state := builder }) (modify fun j => { j with state := builder }))
  exact hrest j

theorem Catalog.seen_load (h : Trace.Sifts k t t') (file : File) :
    Seen k (load file t) (load file t') := by
  intro log
  have hsurvey := (Seen.visitor h file (seen_onLeaf h)).survey [PageId.catalog] ⟨log, {}⟩
  unfold load
  dsimp only
  rw [show (⟨k log, {}⟩ : Journal Builder) = Journal.via k id ⟨log, {}⟩ from rfl, ← hsurvey]
  generalize (Visitor.ofFile file t (onLeaf t)).survey _ _ = surveyed
  rcases surveyed with ⟨pages, j⟩ | ⟨e, j⟩
  · exact congrArg (EStateM.Result.ok j.state.finish) (h.push (fun _ => rfl) j.log)
  · rfl

/-! Long values -/

theorem LongValues.seen_onLeaf (h : Trace.Sifts k t t') (table : Table) (l : Leaf) :
    Seen (Journal.via k id) (onLeaf t table l) (onLeaf t' table l) :=
  (Seen.lift l.split).bind fun (key, payload) =>
    (Seen.logIf h (.longValueSegment table.name l.page.id key.bytes payload.length)).bind
      fun _ => Seen.modify fun _ => rfl

theorem LongValues.seen_load (h : Trace.Sifts k t t') (file : File) (table : Table) :
    Seen k (load file t table) (load file t' table) := by
  intro log
  have hsurvey := (Seen.visitor h file (seen_onLeaf h table)).survey
    (table.longValues.map (·.root)) ⟨log, {}⟩
  unfold load
  dsimp only
  rw [show (⟨k log, {}⟩ : Journal LongValues) = Journal.via k id ⟨log, {}⟩ from rfl, ← hsurvey]
  generalize (Visitor.ofFile file t (onLeaf t table)).survey _ _ = surveyed
  rcases surveyed with ⟨pages, j⟩ | ⟨e, j⟩
  · exact congrArg (EStateM.Result.ok j.state) (h.push (fun _ => rfl) j.log)
  · rfl

/-! Dumps -/

theorem Record.Draft.plain_events (draft : Draft) {e : Trace.Event} (h : e ∈ draft.events) :
    e.Plain := by
  obtain ⟨r, -, rfl⟩ := List.mem_map.mp h
  exact fun _ => rfl

namespace Dump

variable {onRow : Row → Callback σ Unit} {onRow' : Row → Callback τ Unit}

def via (q : σ → τ) (d : Dump σ) : Dump τ := ⟨d.stats, d.failures, q d.state⟩

theorem seen_decodeLeaf (h : Trace.Sifts k t t') (schema : Record.Schema) (l : Leaf) :
    Seen (Journal.via k (via q)) (decodeLeaf schema l) (decodeLeaf schema l) := by
  have hlog (draft : Record.Draft) := Seen.forM_log (q := via q) h fun _ => draft.plain_events
  unfold decodeLeaf
  split
  · exact Seen.pure _
  · split <;> exact (hlog _).bind fun _ => Seen.pure _

theorem seen_deliver (hq : ∀ row, Seen q (onRow row) (onRow' row)) (row : Row) :
    Seen (via q) (deliver onRow row) (deliver onRow' row) := by
  intro d
  unfold deliver via
  dsimp only
  rw [← hq row d.state]
  cases onRow row d.state <;> rfl

theorem seen_onLeaf (h : Trace.Sifts k t t') (hq : ∀ row, Seen q (onRow row) (onRow' row))
    (schema : Record.Schema) (l : Leaf) :
    Seen (Journal.via k (via q)) (onLeaf schema onRow l) (onLeaf schema onRow' l) := by
  unfold onLeaf
  split
  case isFalse => exact Seen.pure ()
  refine (seen_decodeLeaf h schema l).bind fun decoded => ?_
  cases decoded with
  | ok row =>
    have hcount : Seen (via q) (modify (count row)) (modify (count row)) := Seen.modify fun _ => rfl
    exact (Seen.ofCallback hcount).bind fun _ => Seen.ofCallback (seen_deliver hq row)
  | error reason =>
    have hfail : Seen (via q) (modify (fail ⟨l.page.id, l.value.index, reason⟩))
        (modify (fail ⟨l.page.id, l.value.index, reason⟩)) := Seen.modify fun _ => rfl
    exact (Seen.log h fun _ => rfl).bind fun _ => Seen.ofCallback hfail

end Dump

namespace Database

variable {onRow : Row → Callback σ Unit} {onRow' : Row → Callback τ Unit}

def under (t : Trace.Switches) (db : Database) : Database := { db with trace := t }

/-- An image opens under other switches as it does under these. -/
theorem open_under (h : Trace.Sifts k t t') (source : ByteArray) (log : Array Trace.Event) :
    open? source t' (k log) = match open? source t log with
      | .ok db log' => .ok (db.under t') (k log')
      | .error e log' => .error e (k log') := by
  unfold open?
  rcases File.ofBytes source with e | file
  · rfl
  have hopening :
      k ((if file.header.state = .dirtyShutdown then
          log.push .dirtyShutdown else log).push (.opened file.layout)) =
        (if file.header.state = .dirtyShutdown then
          (k log).push .dirtyShutdown else k log).push (.opened file.layout) := by
    rw [h.push fun _ => rfl]
    split
    · rw [h.push fun _ => rfl]
    · rfl
  dsimp only
  rw [← hopening, ← Catalog.seen_load h file]
  generalize Catalog.load file t _ = loaded
  rcases loaded with ⟨catalog, log'⟩ | ⟨e, log'⟩ <;> rfl

theorem trace_of_open {source : ByteArray} {log log' : Array Trace.Event} {db : Database}
    (h : open? source t log = .ok db log') : db.trace = t := by
  unfold open? at h
  split at h
  · cases h
  · dsimp only at h
    split at h
    · cases h
      rfl
    · cases h

theorem seen_dumpRows (h : Trace.Sifts k t t') (hq : ∀ row, Seen q (onRow row) (onRow' row))
    (file : File) (schema : Record.Schema) :
    Seen (Journal.via k q) (dumpRows file t schema onRow) (dumpRows file t' schema onRow') := by
  intro j
  have hsurvey := (Seen.visitor h file (Dump.seen_onLeaf h hq schema)).survey [schema.table.root]
    ⟨j.log, { state := j.state }⟩
  unfold dumpRows
  dsimp only
  rw [show (⟨(Journal.via k q j).log, { state := (Journal.via k q j).state }⟩ : Journal (Dump τ)) =
    Journal.via k (Dump.via q) ⟨j.log, { state := j.state }⟩ from rfl, ← hsurvey]
  generalize (Visitor.ofFile file t (Dump.onLeaf schema onRow)).survey _ _ = surveyed
  rcases surveyed with ⟨pages, j'⟩ | ⟨e, j'⟩
  · have hresult : (Dump.via q j'.state).result = j'.state.result := rfl
    simp only [mapState, Journal.via, hresult]
    cases j'.state.result with
    | ok stats =>
      exact congrArg (fun log => EStateM.Result.ok stats (⟨log, q j'.state.state⟩ : Journal τ))
        (h.push (fun _ => rfl) j'.log)
    | error e =>
      exact congrArg (fun log => EStateM.Result.error e (⟨log, q j'.state.state⟩ : Journal τ))
        (h.push (fun _ => rfl) j'.log)
  · rfl

/-- A dump under other switches, for a caller whose state is a picture of the other's. -/
theorem seen_dumpTable (h : Trace.Sifts k t t') (hq : ∀ row, Seen q (onRow row) (onRow' row))
    (db : Database) (name : String) : Seen (Journal.via k q) ((db.under t).dumpTable name onRow)
      ((db.under t').dumpTable name onRow') := by
  unfold dumpTable dump under
  dsimp only
  split
  · exact Seen.throw _
  · rename_i table _
    exact (Seen.ofLogged (LongValues.seen_load h db.file table)).bind fun longValues =>
      seen_dumpRows h hq db.file ⟨table, db.file.layout, longValues⟩

def session (source : ByteArray) (trace : Trace.Switches) (name : String)
    (onRow : Row → Callback σ Unit) : Run σ DumpStats := do
  let db ← Run.ofLogged (open? source trace)
  db.dumpTable name onRow

theorem seen_session (h : Trace.Sifts k t t') (hq : ∀ row, Seen q (onRow row) (onRow' row))
    (source : ByteArray) (name : String) :
    Seen (Journal.via k q) (session source t name onRow) (session source t' name onRow') := by
  intro j
  have hopen := open_under h source j.log
  unfold session
  rw [bind_apply, bind_apply]
  unfold Run.ofLogged
  rw [Journal.log_via, hopen]
  rcases hr : open? source t j.log with ⟨db, log⟩ | ⟨e, log⟩
  · have hdump := seen_dumpTable h hq db name ⟨log, j.state⟩
    rwa [show db.under t = db by rw [under, ← trace_of_open hr]] at hdump
  · rfl

end Database

end Ese
