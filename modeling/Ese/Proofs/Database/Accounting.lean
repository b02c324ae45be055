import Mathlib
import Ese.Proofs.Database.Dump
import Ese.Proofs.Tree.Harvest
/-!
The account a dump gives. What the walk of a table hands over on pages with records is delivered or
listed as broken, each entry once, and the answer counts both. A caller that refuses a row ends the
dump there, and a walk that fails ends it behind its last entry.
-/

namespace Ese.Dump

open Ese.Tree

variable {σ : Type}

/-! Rows handed over one by one -/

section

variable {f : Row → Callback σ Unit} {before after : List Row} {row : Row} {s s₁ s₂ : σ} {e : Error}

/-- The first row that is refused is the last that is handed over. -/
theorem forM_refused (hbefore : before.forM f s = .ok () s₁) (hrow : f row s₁ = .error e s₂) :
    (before ++ row :: after).forM f s = .error e s₂ := by
  induction before generalizing s with
  | nil =>
    cases hbefore
    rw [List.nil_append, forM_cons_apply, hrow]
  | cons r before ih =>
    rw [forM_cons_apply] at hbefore
    rw [List.cons_append, forM_cons_apply]
    cases hr : f r s with
    | error e' s' =>
      rw [hr] at hbefore
      cases hbefore
    | ok u s' =>
      rw [hr] at hbefore
      exact ih hbefore

/-- Either all rows are taken or there is a first that is refused. -/
theorem forM_cases (f : Row → Callback σ Unit) (rows : List Row) (s : σ) :
    (∃ s', rows.forM f s = .ok () s') ∨ ∃ before row after s₁ e s₂,
      rows = before ++ row :: after ∧ before.forM f s = .ok () s₁ ∧ f row s₁ = .error e s₂ := by
  induction rows generalizing s with
  | nil => exact .inl ⟨s, rfl⟩
  | cons row rows ih =>
    cases hrow : f row s with
    | error e s₂ => exact .inr ⟨[], row, rows, s, e, s₂, rfl, rfl, hrow⟩
    | ok u s' =>
      have hfirst : ∀ rest : List Row, (row :: rest).forM f s = rest.forM f s' := by
        intro rest
        rw [forM_cons_apply, hrow]
      rcases ih s' with ⟨s'', h⟩ | ⟨before, r, after, s₁, e, s₂, rfl, hbefore, hr⟩
      · exact .inl ⟨s'', by rw [hfirst, h]⟩
      · exact .inr ⟨row :: before, r, after, s₁, e, s₂, rfl, by rw [hfirst, hbefore], hr⟩

end

/-! Delivered or broken -/

section

variable (schema : Record.Schema) (ls : List Leaf)

theorem length_delivered_add_failed :
    (delivered schema ls).length + (failed schema ls).length = (onRecordPages ls).length := by
  unfold delivered failed
  induction onRecordPages ls with
  | nil => rfl
  | cons l rest ih =>
    rw [List.length_cons, ← ih]
    cases hrow : entryRow schema l <;>
      simp only [List.filterMap_cons, hrow, Except.toOption, List.length_cons] <;>
      omega

theorem failed_eq_nil_iff :
    failed schema ls = [] ↔ ∀ l ∈ onRecordPages ls, ∃ row, entryRow schema l = .ok row := by
  rw [failed, List.filterMap_eq_nil_iff]
  refine forall₂_congr fun l _ => ?_
  cases entryRow schema l <;> simp

end

/-! The account -/

/-- What a dump has to answer to a caller, when a walk hands these leaf entries over and ends so. -/
structure Accounts (schema : Record.Schema) (onRow : Row → Callback σ Unit)
    (walked : List Leaf × Except Error Unit) (start : σ)
    (answer : EStateM.Result Error σ DumpStats) : Prop where
  once : ((onRecordPages walked.1).map Leaf.place).Nodup
  complete : (delivered schema walked.1).length + (failed schema walked.1).length =
    (onRecordPages walked.1).length
  /-- The rows are handed over in order, up to the first that is refused; that ends the dump. -/
  handed : (∃ s, (delivered schema walked.1).forM onRow start = .ok () s) ∨
    ∃ before row after s₁ e s₂, delivered schema walked.1 = before ++ row :: after ∧
      before.forM onRow start = .ok () s₁ ∧ onRow row s₁ = .error e s₂ ∧ answer = .error e s₂
  /-- A walk that fails has its entries handed over before its error is the answer. -/
  cut : ∀ s e, (delivered schema walked.1).forM onRow start = .ok () s → walked.2 = .error e →
    answer = .error e s
  /-- The answer counts rows and warnings if no entry is broken. -/
  counted : ∀ s, (delivered schema walked.1).forM onRow start = .ok () s → walked.2 = .ok () →
    (∀ l ∈ onRecordPages walked.1, ∃ row, entryRow schema l = .ok row) →
    answer = .ok ⟨(delivered schema walked.1).length, warningCount (delivered schema walked.1)⟩ s
  broken : ∀ s, (delivered schema walked.1).forM onRow start = .ok () s → walked.2 = .ok () →
    (¬ ∀ l ∈ onRecordPages walked.1, ∃ row, entryRow schema l = .ok row) →
    answer = .error (.rowErrors (delivered schema walked.1).length (failed schema walked.1)) s

theorem tally_ok {rows : List Row} {failures : List RowError} (h : failures = []) :
    tally rows failures = .ok ⟨rows.length, warningCount rows⟩ := by
  rw [tally, h]
  rfl

theorem tally_error {rows : List Row} {failures : List RowError} (h : failures ≠ []) :
    tally rows failures = .error (.rowErrors rows.length failures) := by
  rw [tally, if_neg (by simpa using h)]

/-- A dump with its table and its long values found gives the account. -/
theorem accounts_dumpRows (file : File) (trace : Trace.Switches) (schema : Record.Schema)
    (onRow : Row → Callback σ Unit) (j : Journal σ) :
    Accounts schema onRow (harvest file schema.table.root) j.state
      (Run.onState (Database.dumpRows file trace schema onRow j)) := by
  have honce : ((onRecordPages (harvest file schema.table.root).1).map Leaf.place).Nodup :=
    (nodup_harvest file schema.table.root).sublist (List.filter_sublist.map Leaf.place)
  have hanswer := onState_dumpRows file trace schema onRow j
  rw [harvest_eq] at honce ⊢
  unfold outcome at hanswer
  generalize trail file.readPage schema.table.root {} = t at honce hanswer ⊢
  simp only [bind_apply] at hanswer
  rw [hanswer]
  refine ⟨honce, length_delivered_add_failed _ _, ?_, fun s e hrows hwalk => ?_,
    fun s hrows hwalk hall => ?_, fun s hrows hwalk hall => ?_⟩
  · rcases forM_cases onRow (delivered schema (leaves t.1)) j.state with
      hall | ⟨before, row, after, s₁, e, s₂, hrows, hbefore, hrow⟩
    · exact .inl hall
    · refine .inr ⟨before, row, after, s₁, e, s₂, hrows, hbefore, hrow, ?_⟩
      rw [hrows, forM_refused hbefore hrow]
  · change t.2 = .error e at hwalk
    rw [hrows, hwalk]
    rfl
  · change t.2 = .ok () at hwalk
    rw [hrows, hwalk, tally_ok ((failed_eq_nil_iff schema _).mpr hall)]
    rfl
  · change t.2 = .ok () at hwalk
    rw [hrows, hwalk, tally_error (mt (failed_eq_nil_iff schema _).mp hall)]
    rfl

end Ese.Dump

namespace Ese.Database

open Ese.Tree

variable {σ : Type}

/-- A dump accounts for every entry of its table. Without the table or its long values no row is
handed over. -/
theorem accounts_dumpTable (db : Database) (name : String) (onRow : Row → Callback σ Unit)
    (j : Journal σ) :
    match db.catalog.table? name with
    | none => db.dumpTable name onRow j = .error (.tableNotFound name) j
    | some table => match LongValues.load db.file db.trace table j.log with
      | .error e log => db.dumpTable name onRow j = .error e { j with log }
      | .ok longValues _ => Dump.Accounts ⟨table, db.file.layout, longValues⟩ onRow
          (harvest db.file table.root) j.state (Run.onState (db.dumpTable name onRow j)) := by
  unfold dumpTable dump
  cases db.catalog.table? name with
  | none => rfl
  | some table =>
    simp only [bind_apply, Run.ofLogged]
    cases LongValues.load db.file db.trace table j.log with
    | error e log => rfl
    | ok longValues log =>
      exact Dump.accounts_dumpRows db.file db.trace ⟨table, db.file.layout, longValues⟩ onRow
        { j with log }

end Ese.Database
