import Mathlib
import Ese.Proofs.Database.Dump
import Ese.Proofs.Machine.Catalog
import Ese.Proofs.Machine.Records
import Ese.Proofs.Machine.Walk
/-!
The callbacks of the three walks with checked operations: catalog entries, long values and rows.
Each is matched with the callback it stands for. The rows and their warnings can be counted in a
word because there are fewer entries than the pages can have, and less than one warning a byte.
-/

namespace Ese.Machine

open Ese.Tree

variable {σ τ : Type}

def catalogLeaf (trace : Trace.Switches) (leaf : Leaf) : Run Builder Unit := do
  if leaf.page.header.holdsRecords then
    let (_, payload) ← split leaf
    let entry ← decodeEntry payload
    Run.logIf trace.catalog (.catalogRecord leaf.page.id leaf.value.index entry)
    let builder := (← get).state
    (builder.remarks entry).forM Run.log
    let builder ← builder.push entry
    modify fun j => { j with state := builder }

def longValueLeaf (trace : Trace.Switches) (table : Table) (leaf : Leaf) :
    Run LongValues Unit := do
  let (key, payload) ← split leaf
  Run.logIf trace.longValues
    (.longValueSegment table.name leaf.page.id key.bytes payload.length)
  modify fun j => { j with state := j.state.insert key.bytes payload }

def decodeLeaf (schema : Record.Schema) (leaf : Leaf) :
    Run (Dump σ) (Except DecodeError Row) := do
  match split leaf with
  | .error e => return .error e
  | .ok (_, payload) =>
    match decodeInto schema payload {} with
    | .ok () draft =>
      draft.events.forM Run.log
      return .ok draft.row
    | .error e draft =>
      draft.events.forM Run.log
      return .error e

def count (row : Row) (stats : DumpStats) : Except DecodeError DumpStats := do
  let rows ← add 64 stats.rows 1
  let warnings ← add 64 stats.warnings row.warnings.length
  return { rows, warnings }

/-- One leaf entry of a table. A fault is no broken row: it ends the dump. -/
def rowLeaf (schema : Record.Schema) (onRow : Row → Callback σ Unit) (leaf : Leaf) :
    Run (Dump σ) Unit := do
  if leaf.page.header.holdsRecords then
    match ← decodeLeaf schema leaf with
    | .ok row =>
      let stats ← count row (← get).state.stats
      Run.ofCallback (modify fun d => { d with stats })
      Run.ofCallback (Dump.deliver onRow row)
    | .error (.fault f) => throw (.decode (.fault f))
    | .error reason =>
      let failure : RowError := ⟨leaf.page.id, leaf.value.index, reason⟩
      Run.log (.rowFailed schema.table.name failure)
      Run.ofCallback (modify (Dump.fail failure))

/-! Logs -/

section

variable {P : Error → Prop} {T : Nat → σ → τ → Prop} {n : Nat} {j : Journal σ} {j' : Journal τ}

theorem agree_log (h : Noted T n j j') (e : Trace.Event) :
    Agree P (Noted T n) (Run.log e j) (Run.log e j') :=
  .ok ⟨congrArg (·.push e) h.1, h.2⟩

theorem agree_logIf (h : Noted T n j j') (wanted : Bool) (e : Trace.Event) :
    Agree P (Noted T n) (Run.logIf wanted e j) (Run.logIf wanted e j') := by
  cases wanted
  · exact .ok h
  · exact agree_log h e

theorem agree_logs (h : Noted T n j j') (events : List Trace.Event) :
    Agree P (Noted T n) (events.forM Run.log j) (events.forM Run.log j') := by
  induction events generalizing j j' with
  | nil => exact .ok h
  | cons e events ih => exact (agree_log h e).bind (fun _ _ _ _ hu => ih hu) fun _ _ => id

end

/-! Catalog entries -/

def SameTables (_ : Nat) (b : Builder) (b' : Catalog.Builder) : Prop := b' = b.plain ∧ b.Sound

theorem agree_push {n : Nat} {j : Journal Builder} {j' : Journal Catalog.Builder}
    (h : Noted SameTables n j j') (entry : Catalog.Entry) :
    Agree Error.Faultless (Noted SameTables n)
      ((do
        (j.state.remarks entry).forM Run.log
        let builder ← j.state.push entry
        modify fun j => { j with state := builder } : Run Builder Unit) j)
      ((do
        (j'.state.remarks entry).forM Run.log
        let builder ← j'.state.push entry
        modify fun j => { j with state := builder } : Run Catalog.Builder Unit) j') := by
  obtain ⟨hlog, hstate, hsound⟩ := h
  rw [hstate, Builder.remarks_plain hsound]
  refine (agree_logs ⟨hlog, hstate, hsound⟩ _).bind (fun _ s t _ ht => ?_) fun _ _ => id
  have hpush := Builder.simulates_push hsound entry
  generalize j.state.push entry = checked at hpush ⊢
  generalize j.state.plain.push entry = running at hpush ⊢
  rcases hpush with ⟨hnext⟩ | ⟨he⟩
  · exact .ok ⟨ht.1, rfl, hnext⟩
  · exact .error he ht

theorem matched_catalogLeaf (trace : Trace.Switches) :
    Matched Error.Faultless SameTables (catalogLeaf trace) (Catalog.onLeaf trace) where
  expected _ := id
  mono h _ := h
  leaf l hshort count hcount j j' hj := by
    have hanswer : ∀ e : DecodeError, e.Faultless → Error.Faultless e := fun _ => id
    have hj : Noted SameTables (count + 1) j j' := hj
    unfold catalogLeaf Catalog.onLeaf
    split
    · refine .read (safe_split l) hanswer hj ?_
      rintro ⟨key, payload⟩ -
      refine .read (safe_decodeEntry payload) hanswer hj fun entry _ => ?_
      exact (agree_logIf hj _ _).bind (fun _ s t _ ht => agree_push ht entry) fun _ _ => id
    · exact .ok hj

/-! Long values -/

def SameValues (_ : Nat) (lv lv' : LongValues) : Prop := lv = lv' ∧ Buffered lv'

theorem buffered_insert {lv : LongValues} (h : Buffered lv) (key : Bytes) {payload : Bytes}
    (hpayload : payload.length < bufferLimit) : Buffered (lv.insert key payload) := by
  intro lid content hcontent
  rw [LongValues.get?, LongValues.insert, Std.HashMap.getElem?_insert] at hcontent
  split at hcontent
  · exact Option.some.inj hcontent ▸ hpayload
  · exact h lid content hcontent

/-- What is behind the key of an entry is no longer than the entry. -/
theorem length_payload_le (key : Key) (v : TaggedValue) :
    (key.payload v).length ≤ v.data.length := by
  rw [Key.payload, List.length_drop]
  exact Nat.sub_le ..

theorem length_payload_lt {l : Leaf} {key : Key} {payload : Bytes}
    (hsplit : l.split = .ok (key, payload)) (h : l.value.data.length < 2 ^ 15) :
    payload.length < 2 ^ 15 := by
  obtain ⟨k, -, hpair⟩ := Outcome.of_bind_ok hsplit
  cases hpair
  exact lt_of_le_of_lt (length_payload_le _ _) h

theorem matched_longValueLeaf (trace : Trace.Switches) (table : Table) :
    Matched Error.Faultless SameValues (longValueLeaf trace table)
      (LongValues.onLeaf trace table) where
  expected _ := id
  mono h _ := h
  leaf l hshort count hcount j j' hj := by
    have hj : Noted SameValues (count + 1) j j' := hj
    refine .read (safe_split l) (fun _ => id) hj ?_
    rintro ⟨key, payload⟩ hsplit
    refine (agree_logIf hj _ _).bind (fun _ s t _ ht => ?_) fun _ _ => id
    obtain ⟨hlog, hsame, hbuffered⟩ := ht
    have hpayload := length_payload_lt hsplit hshort
    refine .ok ⟨hlog, congrArg (·.insert key.bytes payload) hsame, ?_⟩
    exact buffered_insert hbuffered key.bytes (hpayload.trans (by decide))

/-! Rows -/

/-- The same dump, with counts that the entries so far allow and no fault among the broken rows. -/
structure Counted (n : Nat) (d d' : Dump σ) : Prop where
  same : d = d'
  rows : d'.stats.rows ≤ n
  warnings : d'.stats.warnings ≤ 2 ^ 15 * n
  failures : ∀ e ∈ d'.failures, e.reason.Faultless

theorem Counted.mono {m n : Nat} {d d' : Dump σ} (h : Counted m d d') (hmn : m ≤ n) :
    Counted n d d' where
  same := h.same
  rows := h.rows.trans hmn
  warnings := h.warnings.trans (Nat.mul_le_mul_left _ hmn)
  failures := h.failures

theorem Counted.fail {n : Nat} {d d' : Dump σ} (h : Counted n d d') {e : RowError}
    (he : e.reason.Faultless) : Counted n (Dump.fail e d) (Dump.fail e d') where
  same := congrArg (Dump.fail e) h.same
  rows := h.rows
  warnings := h.warnings
  failures f hf := by
    rcases List.mem_append.mp hf with hf | hf
    · exact h.failures f hf
    · exact List.mem_singleton.mp hf ▸ he

theorem Counted.count {n : Nat} {d d' : Dump σ} (h : Counted n d d') {row : Row}
    (hrow : row.warnings.length < 2 ^ 15) (s : σ) :
    Counted (n + 1) { Dump.count row d with state := s } { Dump.count row d' with state := s } where
  same := by rw [h.same]
  rows := Nat.succ_le_succ h.rows
  warnings := by
    have hwarnings := h.warnings
    change d'.stats.warnings + row.warnings.length ≤ _
    omega
  failures := h.failures

/-- The error is no fault, or it is the caller's own. -/
def Expected (onRow : Row → Callback σ Unit) (e : Error) : Prop :=
  e.Faultless ∨ ∃ row s s', onRow row s = .error e s'

section

variable {P : Error → Prop} {schema : Record.Schema} {l : Leaf}

theorem of_entryRow (hlongValues : Buffered schema.longValues)
    (hshort : l.value.data.length < 2 ^ 15) :
    (∀ row, Dump.entryRow schema l = .ok row → row.warnings.length < 2 ^ 15) ∧
      ∀ e, Dump.entryRow schema l = .error e → e.Faultless := by
  unfold Dump.entryRow
  rcases hsplit : l.split with e | ⟨key, payload⟩
  · refine ⟨nofun, ?_⟩
    rintro _ ⟨⟩
    exact (safe_split l).faultless e hsplit
  have hpayload := length_payload_lt hsplit hshort
  have hbuffer : payload.length < bufferLimit := hpayload.trans (by decide)
  have hrecord := decodes_record hlongValues hbuffer {}
  refine ⟨fun row hrow => ?_, (safe_decode hlongValues hbuffer).faultless⟩
  change Record.decode schema payload = .ok row at hrow
  unfold Record.decode at hrow
  generalize decodeInto schema payload {} = checked at hrecord
  generalize Record.decodeInto schema payload {} = running at hrecord hrow
  rcases hrecord with ⟨-, hfew⟩ | ⟨-, -⟩
  · cases hrow
    exact lt_of_le_of_lt (hfew.trans_eq (Nat.zero_add _)) hpayload
  · cases hrow

theorem agree_decodeLeaf (hlongValues : Buffered schema.longValues)
    (hshort : l.value.data.length < 2 ^ 15) {n : Nat} {j j' : Journal (Dump σ)}
    (hj : Noted Counted n j j') :
    Agree P (Noted Counted n) (decodeLeaf schema l j) (Dump.decodeLeaf schema l j') := by
  unfold decodeLeaf Dump.decodeLeaf
  rw [(safe_split l).same]
  rcases hsplit : l.split with e | ⟨key, payload⟩
  · exact .ok hj
  have hbuffer : payload.length < bufferLimit :=
    (length_payload_lt hsplit hshort).trans (by decide)
  have hrecord := decodes_record hlongValues hbuffer {}
  dsimp only
  generalize decodeInto schema payload {} = checked at hrecord ⊢
  generalize Record.decodeInto schema payload {} = running at hrecord ⊢
  rcases hrecord with ⟨rfl, -⟩ | ⟨-, rfl, -⟩
  · exact (agree_logs hj _).bind (fun _ _ _ _ ht => .ok ht) fun _ _ => id
  · exact (agree_logs hj _).bind (fun _ _ _ _ ht => .ok ht) fun _ _ => id

theorem agree_deliver (onRow : Row → Callback σ Unit) {row : Row}
    (hrow : row.warnings.length < 2 ^ 15) {n : Nat} (hn : n < pageLimit * 2 ^ 32)
    {j j' : Journal (Dump σ)} (hj : Noted Counted n j j') :
    Agree (Expected onRow) (Noted Counted (n + 1))
      ((do
        let stats ← count row j.state.stats
        Run.ofCallback (modify fun d => { d with stats })
        Run.ofCallback (Dump.deliver onRow row) : Run (Dump σ) Unit) j)
      ((do
        Run.ofCallback (modify (Dump.count row))
        Run.ofCallback (Dump.deliver onRow row) : Run (Dump σ) Unit) j') := by
  obtain ⟨log, d⟩ := j
  obtain ⟨log', d'⟩ := j'
  obtain ⟨hlog, hd⟩ := hj
  obtain rfl : log = log' := hlog
  obtain rfl : d = d' := hd.same
  have hrows : d.stats.rows ≤ n := hd.rows
  have hwarnings : d.stats.warnings ≤ 2 ^ 15 * n := hd.warnings
  have hlimit : pageLimit * 2 ^ 32 = 2 ^ 48 := rfl
  have hcount : count row d.stats = .ok (Dump.count row d).stats := by
    rw [count, add_eq (by omega), ok_bind, add_eq (by omega), ok_bind]
    rfl
  rw [hcount]
  change Agree _ _ (Run.ofCallback (Dump.deliver onRow row) ⟨log, Dump.count row d⟩)
    (Run.ofCallback (Dump.deliver onRow row) ⟨log, Dump.count row d⟩)
  unfold Run.ofCallback Dump.deliver
  dsimp only
  rcases hanswer : onRow row (Dump.count row d).state with ⟨_, s⟩ | ⟨e, s⟩
  · exact .ok ⟨rfl, hd.count hrow s⟩
  · exact .error (.inr ⟨row, _, s, hanswer⟩) ⟨rfl, hd.count hrow s⟩

theorem agree_fail (table : String) {e : RowError} (he : e.reason.Faultless) {n : Nat}
    {j j' : Journal (Dump σ)} (hj : Noted Counted n j j') :
    let listed : Run (Dump σ) Unit := do
      Run.log (.rowFailed table e)
      Run.ofCallback (modify (Dump.fail e))
    Agree P (Noted Counted n) (listed j) (listed j') := by
  refine (agree_log hj _).bind (fun _ s t _ ht => ?_) fun _ _ => id
  obtain ⟨hlog, hd⟩ := ht
  exact .ok ⟨hlog, hd.fail he⟩

theorem matched_rowLeaf (hlongValues : Buffered schema.longValues)
    (onRow : Row → Callback σ Unit) :
    Matched (Expected onRow) Counted (rowLeaf schema onRow) (Dump.onLeaf schema onRow) where
  expected _ := .inl
  mono := .mono
  leaf l hshort n hn j j' hj := by
    have hmore : ∀ {s t : Journal (Dump σ)}, Noted Counted n s t → Noted Counted (n + 1) s t :=
      fun h => ⟨h.1, h.2.mono (Nat.le_succ n)⟩
    unfold rowLeaf Dump.onLeaf
    split
    · obtain ⟨hfew, hfaultless⟩ := of_entryRow hlongValues hshort
      refine (agree_decodeLeaf hlongValues hshort hj).bind (fun a s t hrun ht => ?_)
        fun _ _ => hmore
      obtain ⟨_, hrow⟩ := Dump.decodeLeaf_eq schema l j'
      obtain ⟨rfl, -⟩ := EStateM.Result.ok.inj (hrow.symm.trans hrun)
      rcases hentry : Dump.entryRow schema l with e | row
      · have he := hfaultless e hentry
        let failure : RowError := ⟨l.page.id, l.value.index, e⟩
        have hfail : Agree (Expected onRow) (Noted Counted (n + 1)) _ _ :=
          agree_fail schema.table.name (show failure.reason.Faultless from he) (hmore ht)
        rcases e with _ | _ | _ | _
        · exact hfail
        · exact hfail
        · exact hfail
        · exact he.elim
      · exact agree_deliver onRow (hfew row hentry) hn ht
    · exact .ok (hmore hj)

end

end Ese.Machine
