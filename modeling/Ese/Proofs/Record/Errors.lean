import Mathlib
import Ese.Proofs.Error.Messages
import Ese.Proofs.Record.Types
import Ese.Proofs.Value.Scalar
/-!
The names that decoding a record brings up. A record that does not decode is described by numbers,
and by the name of a column only where a fixed column of the table has no width; the warnings of one
that does are about columns of the table.
-/

namespace Ese.Record

open DecodeError

def Named (table : Table) (name : String) : Prop := ∃ c ∈ table.columns.toList, c.name = name

def NamesColumns (table : Table) (e : DecodeError) : Prop := ∀ text ∈ e.texts, Named table text

/-! Reads -/

theorem Header.fails_read (record : Bytes) : Fails Wordless (Header.read record) :=
  fails_readU8.bind fun _ => fails_readU8.bind fun _ => fails_readU16.bind fun _ => .ok _

theorem fails_readBitmap (record : Bytes) (h : Header) : Fails Wordless (readBitmap record h) := by
  unfold readBitmap
  split
  · exact .error rfl
  · exact fails_slice

theorem fails_isNull (bitmap : Bytes) (id : UInt32) : Fails Wordless (isNull bitmap id) := by
  unfold isNull
  split
  · exact .error rfl
  split
  · exact .ok _
  · exact .error rfl

theorem fails_decodeValue (c : Column) (bytes : Bytes) : Fails Wordless (Value.decode c bytes) := by
  intro e h
  obtain ⟨width, -, -, rfl⟩ := Value.decode_eq_error_iff.mp h
  rfl

theorem fails_ofReference (bytes : Bytes) : Fails Wordless (Lid.ofReference bytes) := by
  unfold Lid.ofReference
  split
  · exact .ok _
  · exact .error rfl

theorem fails_readSlotsFrom (layout : Layout) (record : Bytes) (start position : Nat)
    (limit : Option Nat) : Fails Wordless (readSlotsFrom layout record start position limit) := by
  induction position, limit using readSlotsFrom.induct layout record start with
  | case1 position limit hmore ih =>
    rw [readSlotsFrom, if_pos hmore]
    exact fails_readU16.bind fun id => fails_readU16.bind fun raw => (ih id raw).bind fun _ => .ok _
  | case2 position limit hmore =>
    rw [readSlotsFrom, if_neg hmore]
    exact .ok _

/-! Areas -/

section

variable {table : Table} {α : Type}

/-- A read brings no texts into a message. -/
theorem failsFrom_lift {x : Except DecodeError α} (h : Fails Wordless x) :
    FailsFrom (NamesColumns table) (liftM x : Decode α) :=
  .liftDecode <| h.mono fun e he text htext => by
    rw [show e.texts = [] from he] at htext
    cases htext

theorem failsFrom_throw {e : DecodeError} (h : e.Wordless) :
    FailsFrom (NamesColumns table) (throw e : Decode α) :=
  failsFrom_lift (x := .error e) (.error h)

theorem failsFrom_insert (c : Column) (v : Value) : FailsFrom (NamesColumns table) (insert c v) :=
  .of_total fun _ => ⟨(), _, rfl⟩

theorem failsFrom_warn (w : Warning) : FailsFrom (NamesColumns table) (warn w) :=
  .of_total fun _ => ⟨(), _, rfl⟩

theorem failsFrom_remark (r : Trace.Remark) : FailsFrom (NamesColumns table) (remark r) :=
  .of_total fun _ => ⟨(), _, rfl⟩

theorem failsFrom_insertPlain (c : Column) (bytes : Bytes) :
    FailsFrom (NamesColumns table) (insertPlain c bytes) :=
  (failsFrom_lift (fails_decodeValue c bytes)).bind fun v => failsFrom_insert c v

/-- Only a fixed column without a width is told by its name. -/
theorem failsFrom_decodeFixedFrom (record bitmap : Bytes) (lastFixed : UInt8)
    {columns : List Column}
    (h : ∀ c ∈ columns, c ∈ table.columns.toList) (offset : Nat) :
    FailsFrom (NamesColumns table) (decodeFixedFrom record bitmap lastFixed columns offset) := by
  induction columns generalizing offset with
  | nil => exact .pure ()
  | cons c columns ih =>
    unfold decodeFixedFrom
    split
    · exact .pure ()
    split
    · refine .throw fun text htext => ?_
      rw [List.mem_singleton.mp htext]
      exact ⟨c, h c List.mem_cons_self, rfl⟩
    · refine (failsFrom_lift fails_slice).bind fun bytes =>
        (failsFrom_lift (fails_isNull bitmap c.id)).bind fun null => ?_
      have hrest := ih fun d hd => h d (List.mem_cons_of_mem c hd)
      cases null
      · exact (failsFrom_insertPlain c bytes).bind fun _ => hrest _
      · exact FailsFrom.bind (.pure ()) fun _ => hrest _

variable {schema : Schema}

theorem failsFrom_decodeFixed (record : Bytes) (h : Header) :
    FailsFrom (NamesColumns schema.table) (decodeFixed schema record h) :=
  (failsFrom_lift (fails_readBitmap record h)).bind fun bitmap =>
    failsFrom_decodeFixedFrom record bitmap h.lastFixed
      (fun _ hc => (List.mem_filter.mp hc).1) fixedStart

theorem failsFrom_decodeVariableValue (record : Bytes) (h : Header) (index previous last : Nat) :
    FailsFrom (NamesColumns schema.table)
      (decodeVariableValue schema record h index previous last) := by
  unfold decodeVariableValue
  split
  · exact failsFrom_throw rfl
  · refine (failsFrom_lift fails_slice).bind fun bytes => ?_
    split
    · exact failsFrom_insertPlain _ bytes
    · exact .pure ()

theorem failsFrom_decodeVariableFrom (record : Bytes) (h : Header)
    (remaining index previous : Nat) :
    FailsFrom (NamesColumns schema.table)
      (decodeVariableFrom schema record h remaining index previous) := by
  induction remaining generalizing index previous with
  | zero => exact .pure previous
  | succ remaining ih =>
    refine (failsFrom_lift fails_readU16).bind fun raw => ?_
    dsimp only
    split
    · exact FailsFrom.bind (.pure ()) fun _ => ih _ _
    · exact (failsFrom_decodeVariableValue record h index previous _).bind fun _ => ih _ _

theorem failsFrom_insertContent (c : Column) (compressed : Bool) (bytes : Bytes) :
    FailsFrom (NamesColumns table) (insertContent c compressed bytes) := by
  unfold insertContent
  split
  · split
    · exact failsFrom_insert c _
    · exact (failsFrom_remark _).bind fun _ => (failsFrom_remark _).bind fun _ =>
        (failsFrom_insert c _).bind fun _ => failsFrom_warn _
  · exact failsFrom_insertPlain c bytes

theorem failsFrom_insertTagged (c : Column) (flags : ValueFlags) (bytes : Bytes) :
    FailsFrom (NamesColumns table) (insertTagged schema c flags bytes) := by
  unfold insertTagged
  split
  · exact .pure ()
  split
  · exact (failsFrom_insert c _).bind fun _ => failsFrom_warn _
  split
  · refine (failsFrom_lift (fails_ofReference bytes)).bind fun lid => ?_
    split
    · exact failsFrom_insertContent c flags.compressed _
    · exact (failsFrom_insert c _).bind fun _ => failsFrom_warn _
  · exact failsFrom_insertContent c flags.compressed bytes

theorem failsFrom_decodeSlot (record : Bytes) (start : Nat) (slot : Slot) (last : Nat) :
    FailsFrom (NamesColumns table) (decodeSlot schema record start slot last) := by
  unfold decodeSlot
  dsimp only
  split
  · exact failsFrom_throw rfl
  · refine (failsFrom_lift fails_slice).bind fun bytes => ?_
    split
    · exact failsFrom_insertTagged _ _ _
    · exact failsFrom_remark _

theorem failsFrom_decodeSlots (record : Bytes) (start : Nat) (slots : List Slot) :
    FailsFrom (NamesColumns table) (decodeSlots schema record start slots) := by
  induction slots with
  | nil => exact .pure ()
  | cons slot slots ih =>
    rw [decodeSlots_cons]
    exact (failsFrom_decodeSlot record start slot _).bind fun _ => ih

end

/-- A record that does not decode names no text but columns of its table. -/
theorem namesColumns_of_decode {schema : Schema} {record : Bytes} {e : DecodeError}
    (h : decode schema record = .error e) : NamesColumns schema.table e := by
  have hinto : FailsFrom (NamesColumns schema.table) (decodeInto schema record) :=
    (failsFrom_lift (Header.fails_read record)).bind fun header =>
      (failsFrom_decodeFixed record header).bind fun _ =>
        ((failsFrom_decodeVariableFrom record header _ 0 0).bind fun _ => .pure _).bind fun start =>
          (failsFrom_lift (fails_readSlotsFrom schema.layout record start start none)).bind
            fun slots =>
            failsFrom_decodeSlots record start slots
  unfold decode at h
  split at h
  · cases h
  · rename_i e' draft hdraft
    cases h
    exact hinto {} e draft hdraft

theorem Matched.named {table : Table} {columns : List (String × Value)} {warnings : List Warning}
    (h : Matched table columns warnings) {w : Warning} (hw : w ∈ warnings) :
    Named table w.column := by
  induction h with
  | nil => cases hw
  | plain _ _ _ ih => exact ih hw
  | warned hc hcolumn _ ih =>
    rcases List.mem_cons.mp hw with rfl | hw
    · exact ⟨_, hc, hcolumn.symm⟩
    · exact ih hw

theorem named_of_decode {schema : Schema} {record : Bytes} {row : Row}
    (h : decode schema record = .ok row) {w : Warning} (hw : w ∈ row.warnings) :
    Named schema.table w.column := by
  obtain ⟨d, hd⟩ := yields_of_decode h
  obtain ⟨cells, hcells, rfl⟩ := hd.cells
  exact (matched_rowOf fun cell => Division.suits_cells hcells).named hw

end Ese.Record
