import Mathlib
import Ese.Database
import Ese.Proofs.Tree.Replay
/-!
What a dump accounts for. Each leaf entry of a page with records is either delivered as a row or
listed as broken, and the caller sees the rows in the order of the entries, up to the first that it
refuses. Logging makes no difference to any of this.
-/

namespace Ese.Dump

open Ese.Tree

variable {σ : Type}

def entryRow (schema : Record.Schema) (leaf : Leaf) : Except DecodeError Row := do
  let (_, payload) ← leaf.split
  Record.decode schema payload

/-- A leaf entry as the dump takes it, without its log. -/
def take (schema : Record.Schema) (onRow : Row → Callback σ Unit) (leaf : Leaf) :
    Callback (Dump σ) Unit :=
  if leaf.page.header.holdsRecords then
    match entryRow schema leaf with
    | .ok row => modify (count row) >>= fun _ => deliver onRow row
    | .error reason => modify (fail ⟨leaf.page.id, leaf.value.index, reason⟩)
  else pure ()

def onRecordPages (ls : List Leaf) : List Leaf := ls.filter (·.page.header.holdsRecords)

def delivered (schema : Record.Schema) (ls : List Leaf) : List Row :=
  (onRecordPages ls).filterMap fun l => (entryRow schema l).toOption

def failed (schema : Record.Schema) (ls : List Leaf) : List RowError :=
  (onRecordPages ls).filterMap fun l =>
    match entryRow schema l with
    | .ok _ => none
    | .error reason => some ⟨l.page.id, l.value.index, reason⟩

def warningCount (rows : List Row) : Nat := (rows.map (·.warnings.length)).sum

/-- The answer of a dump that delivers these rows and finds these broken. -/
def tally (rows : List Row) (failures : List RowError) : Except Error DumpStats :=
  if failures.isEmpty then .ok ⟨rows.length, warningCount rows⟩
  else .error (.rowErrors rows.length failures)

theorem decodeLeaf_eq (schema : Record.Schema) (leaf : Leaf) (j : Journal (Dump σ)) :
    ∃ log, decodeLeaf schema leaf j = .ok (entryRow schema leaf) { j with log } := by
  unfold decodeLeaf entryRow
  cases leaf.split with
  | error e => exact ⟨j.log, rfl⟩
  | ok entry =>
    obtain ⟨key, payload⟩ := entry
    rw [show (Except.ok (key, payload) >>= fun x => Record.decode schema x.2) =
      Record.decode schema payload from rfl, Record.decode]
    cases hrow : Record.decodeInto schema payload {} with
    | ok u draft =>
      obtain ⟨log, h⟩ := forM_log draft.events j
      exact ⟨log, by simp only [hrow, bind_apply, h]; rfl⟩
    | error e draft =>
      obtain ⟨log, h⟩ := forM_log draft.events j
      exact ⟨log, by simp only [hrow, bind_apply, h]; rfl⟩

theorem calls_onLeaf (file : File) (trace : Trace.Switches) (schema : Record.Schema)
    (onRow : Row → Callback σ Unit) :
    (Visitor.ofFile file trace (onLeaf schema onRow)).Calls (take schema onRow) := by
  intro l w
  change Walk.onState (Walk.ofRun (onLeaf schema onRow l) w) = take schema onRow l w.journal.state
  by_cases hrecords : l.page.header.holdsRecords
  case neg =>
    rw [take, if_neg hrecords]
    unfold Walk.ofRun onLeaf
    rw [if_neg hrecords]
    rfl
  case pos =>
    obtain ⟨log, h⟩ := decodeLeaf_eq schema l w.journal
    rw [take, if_pos hrecords]
    unfold Walk.ofRun onLeaf
    rw [if_pos hrecords, bind_apply, h]
    cases entryRow schema l with
    | error reason => rfl
    | ok row =>
      have hcount : Run.ofCallback (modify (count row)) { log, state := w.journal.state } =
          .ok () { log, state := count row w.journal.state } := rfl
      have hmodify : (modify (count row) : Callback (Dump σ) Unit) w.journal.state =
          .ok () (count row w.journal.state) := rfl
      simp only [bind_apply, hcount, hmodify]
      unfold Run.ofCallback
      cases deliver onRow row (count row w.journal.state) <;> rfl

section

variable {schema : Record.Schema} {onRow : Row → Callback σ Unit} {l : Leaf} {ls : List Leaf}

theorem take_skip (h : ¬ l.page.header.holdsRecords) (d : Dump σ) :
    take schema onRow l d = .ok () d := by
  rw [take, if_neg h]
  rfl

theorem take_broken {reason : DecodeError} (h : l.page.header.holdsRecords)
    (hrow : entryRow schema l = .error reason) (d : Dump σ) :
    take schema onRow l d = .ok () (fail ⟨l.page.id, l.value.index, reason⟩ d) := by
  rw [take, if_pos h, hrow]
  rfl

theorem take_row {row : Row} (h : l.page.header.holdsRecords) (hrow : entryRow schema l = .ok row)
    (d : Dump σ) : take schema onRow l d = match onRow row d.state with
      | .ok () s => .ok () { count row d with state := s }
      | .error e s => .error e { count row d with state := s } := by
  rw [take, if_pos h, hrow]
  rfl

/-! The first entry -/

theorem onRecordPages_skip (h : ¬ l.page.header.holdsRecords) :
    onRecordPages (l :: ls) = onRecordPages ls := by
  exact List.filter_cons_of_neg h

theorem onRecordPages_keep (h : l.page.header.holdsRecords) :
    onRecordPages (l :: ls) = l :: onRecordPages ls := by
  exact List.filter_cons_of_pos h

theorem delivered_broken {reason : DecodeError} (h : l.page.header.holdsRecords)
    (hrow : entryRow schema l = .error reason) :
    delivered schema (l :: ls) = delivered schema ls := by
  simp [delivered, onRecordPages_keep h, hrow, Except.toOption]

theorem delivered_row {row : Row} (h : l.page.header.holdsRecords)
    (hrow : entryRow schema l = .ok row) :
    delivered schema (l :: ls) = row :: delivered schema ls := by
  simp [delivered, onRecordPages_keep h, hrow, Except.toOption]

theorem failed_broken {reason : DecodeError} (h : l.page.header.holdsRecords)
    (hrow : entryRow schema l = .error reason) :
    failed schema (l :: ls) = ⟨l.page.id, l.value.index, reason⟩ :: failed schema ls := by
  simp [failed, onRecordPages_keep h, hrow]

theorem failed_row {row : Row} (h : l.page.header.holdsRecords)
    (hrow : entryRow schema l = .ok row) : failed schema (l :: ls) = failed schema ls := by
  simp [failed, onRecordPages_keep h, hrow]

/-- The entries are delivered or listed, one after the other, until the caller refuses a row. -/
theorem forM_take (schema : Record.Schema) (onRow : Row → Callback σ Unit) (ls : List Leaf)
    (d : Dump σ) :
    match (delivered schema ls).forM onRow d.state with
    | .ok () s => ls.forM (take schema onRow) d = .ok () {
        stats := ⟨d.stats.rows + (delivered schema ls).length,
          d.stats.warnings + warningCount (delivered schema ls)⟩
        failures := d.failures ++ failed schema ls
        state := s }
    | .error e s => ∃ d', ls.forM (take schema onRow) d = .error e d' ∧ d'.state = s := by
  induction ls generalizing d with
  | nil =>
    change [].forM (take schema onRow) d = _
    simp [failed, onRecordPages, delivered, warningCount]
    rfl
  | cons l ls ih =>
    rw [forM_cons_apply]
    by_cases hrecords : l.page.header.holdsRecords
    case neg =>
      unfold delivered failed at ih ⊢
      rw [take_skip hrecords, onRecordPages_skip hrecords]
      exact ih d
    case pos =>
      cases hrow : entryRow schema l with
      | error reason =>
        have h := ih (fail ⟨l.page.id, l.value.index, reason⟩ d)
        rw [take_broken hrecords hrow, delivered_broken hrecords hrow, failed_broken hrecords hrow]
        simpa [fail] using h
      | ok row =>
        rw [take_row hrecords hrow, delivered_row hrecords hrow, failed_row hrecords hrow,
          forM_cons_apply]
        cases onRow row d.state with
        | error e s => exact ⟨_, rfl, rfl⟩
        | ok u s =>
          have h := ih { count row d with state := s }
          simp only at h ⊢
          cases hrest : (delivered schema ls).forM onRow s with
          | error e s' => simpa only [hrest] using h
          | ok u s' =>
            simp only [hrest] at h ⊢
            rw [h]
            simp only [count, warningCount, List.length_cons, List.map_cons, List.sum_cons]
            congr 3 <;> omega

end

/-- What a dump comes to for its caller: the rows are handed over, then the walk ends, and then the
rows and the broken entries are counted. -/
def outcome (read : Reader) (schema : Record.Schema) (onRow : Row → Callback σ Unit) :
    Callback σ DumpStats :=
  let t := trail read schema.table.root {}
  (delivered schema (leaves t.1)).forM onRow >>= fun _ =>
    conclude t.2 >>= fun _ =>
      conclude (tally (delivered schema (leaves t.1)) (failed schema (leaves t.1)))

theorem onState_dumpRows (file : File) (trace : Trace.Switches) (schema : Record.Schema)
    (onRow : Row → Callback σ Unit) (j : Journal σ) :
    Run.onState (Database.dumpRows file trace schema onRow j) =
      outcome file.readPage schema onRow j.state := by
  obtain ⟨pages, hsurvey⟩ := onState_survey (fun _ => rfl) (calls_onLeaf file trace schema onRow)
    schema.table.root { log := j.log, state := { state := j.state } }
  unfold sweep at hsurvey
  unfold Database.dumpRows outcome
  generalize trail file.readPage schema.table.root {} = t at hsurvey ⊢
  have htake := forM_take schema onRow (leaves t.1) { state := j.state }
  simp only [bind_apply] at hsurvey htake ⊢
  generalize Visitor.survey _ _ _ = surveyed at hsurvey ⊢
  cases hrows : (delivered schema (leaves t.1)).forM onRow j.state with
  | error e s =>
    simp only [hrows] at htake ⊢
    obtain ⟨d, hd, rfl⟩ := htake
    rw [hd] at hsurvey
    cases surveyed with
    | ok n j' => cases hsurvey
    | error e' j' =>
      cases hsurvey
      rfl
  | ok u s =>
    simp only [hrows] at htake ⊢
    rw [htake, Nat.zero_add, Nat.zero_add, List.nil_append] at hsurvey
    rcases t with ⟨steps, answer⟩
    cases answer with
    | error e =>
      cases surveyed with
      | ok n j' => cases hsurvey
      | error e' j' =>
        obtain ⟨rfl, hstate⟩ := EStateM.Result.error.inj hsurvey
        exact congrArg (EStateM.Result.error e' ·.state) hstate
    | ok u =>
      cases surveyed with
      | error e' j' => cases hsurvey
      | ok n j' =>
        obtain ⟨rfl, hstate⟩ := EStateM.Result.ok.inj hsurvey
        simp only [hstate, result, tally, conclude]
        cases (failed schema (leaves steps)).isEmpty <;> rfl

end Ese.Dump
