import Mathlib
import Ese.Proofs.Record.Reference
/-!
What decoding does to a row. A step of the decoder fills in cells: it adds them to whatever row it
finds, or fails with the error of a value. Steps that fill in lists of cells fill in, one after the
other, the joined list. The remarks on the way do not matter here.
-/

namespace Ese.Record

variable {α β : Type}

/-- The step answers `a` and adds the cells, or fails as they do. -/
def Fills (d : Decode α) (a : α) : Except DecodeError (List Cell) → Prop
  | .ok cs => ∀ draft, ∃ remarks, d.run draft = .ok a ⟨addCells draft.row cs, remarks⟩
  | .error e => ∀ draft, ∃ draft', d.run draft = .error e draft'

namespace Fills

theorem pure (a : α) : Fills (pure a : Decode α) a (.ok []) := by
  intro draft
  exact ⟨draft.remarks, by simp⟩

theorem read {x : Except DecodeError α} {a : α} {f : α → Decode β} {b : β}
    {cells : Except DecodeError (List Cell)} (hx : x = .ok a) (h : Fills (f a) b cells) :
    Fills (liftM x >>= f) b cells := by
  subst hx
  exact h

theorem bind {d : Decode α} {f : α → Decode β} {a : α} {b : β}
    {x y : Except DecodeError (List Cell)} (hd : Fills d a x) (hf : Fills (f a) b y) :
    Fills (d >>= f) b (both x y) := by
  cases x with
  | error e =>
    intro draft
    obtain ⟨draft', hd⟩ := hd draft
    exact ⟨draft', by rw [EStateM.run_bind, hd]⟩
  | ok xs =>
    cases y with
    | error e =>
      intro draft
      obtain ⟨remarks, hd⟩ := hd draft
      obtain ⟨draft', hf⟩ := hf ⟨addCells draft.row xs, remarks⟩
      exact ⟨draft', by rw [EStateM.run_bind, hd]; exact hf⟩
    | ok ys =>
      intro draft
      obtain ⟨remarks, hd⟩ := hd draft
      obtain ⟨more, hf⟩ := hf ⟨addCells draft.row xs, remarks⟩
      refine ⟨more, ?_⟩
      rw [EStateM.run_bind, hd]
      exact hf.trans (by rw [addCells_addCells])

theorem answer {d : Decode α} {a : α} {x : Except DecodeError (List Cell)} (g : α → β)
    (h : Fills d a x) : Fills (do return g (← d)) (g a) x := by
  cases x with
  | error e =>
    intro draft
    obtain ⟨draft', h⟩ := h draft
    exact ⟨draft', by rw [EStateM.run_bind, h]⟩
  | ok cells =>
    intro draft
    obtain ⟨remarks, h⟩ := h draft
    exact ⟨remarks, by rw [EStateM.run_bind, h]; rfl⟩

theorem insert (c : Column) (v : Value) : Fills (insert c v) () (.ok [⟨c.name, v, none⟩]) := by
  intro draft
  refine ⟨draft.remarks, ?_⟩
  change EStateM.Result.ok () { draft with row := draft.row.insert c.name v } = _
  simp [addCells, Row.insert]

theorem warn (c : Column) (v : Value) (w : Warning) :
    Fills (do Record.insert c v; warn w) () (.ok [⟨c.name, v, some w⟩]) := by
  intro draft
  refine ⟨draft.remarks, ?_⟩
  change EStateM.Result.ok () { draft with row := (draft.row.insert c.name v).warn w } = _
  simp [addCells, Row.insert, Row.warn]

theorem remark (r : Trace.Remark) : Fills (remark r) () (.ok []) := by
  intro draft
  refine ⟨draft.remarks ++ [r], ?_⟩
  rw [addCells_nil]
  rfl

theorem behind (r : Trace.Remark) {d : Decode α} {a : α} {x : Except DecodeError (List Cell)}
    (h : Fills d a x) : Fills (do Record.remark r; d) a x := by
  cases x with
  | error e => exact fun draft => h { draft with remarks := draft.remarks ++ [r] }
  | ok cells => exact fun draft => h { draft with remarks := draft.remarks ++ [r] }

theorem insertPlain (c : Column) (bytes : Bytes) :
    Fills (insertPlain c bytes) () ((plainCell c bytes).map ([·])) := by
  unfold plainCell Record.insertPlain
  cases Value.decode c bytes with
  | error e => exact fun draft => ⟨draft, rfl⟩
  | ok v => exact insert c v

theorem insertContent (c : Column) (compressed : Bool) (bytes : Bytes) :
    Fills (insertContent c compressed bytes) () ((contentCell c compressed bytes).map ([·])) := by
  unfold Record.insertContent contentCell
  split
  · cases Text.Compressed.decode bytes with
    | some text => exact insert c (.string text)
    | none => exact behind _ (behind _ (warn c (.bytes bytes) (.lzxpress c.name)))
  · exact insertPlain c bytes

theorem insertLongValue (schema : Schema) (c : Column) (compressed : Bool) (reference : Bytes) :
    Fills (insertLongValue schema c compressed reference) ()
      ((longValueCell schema.longValues c compressed reference).map ([·])) := by
  unfold Record.insertLongValue longValueCell
  cases Lid.ofReference reference with
  | error e => exact fun draft => ⟨draft, rfl⟩
  | ok lid =>
    apply read rfl
    cases hv : schema.longValues.get? lid with
    | some content =>
      simpa only [Bind.bind, Except.bind, hv] using insertContent c compressed content
    | none =>
      simpa only [Bind.bind, Except.bind, Except.map, hv] using
        warn c (.bytes reference) (.missingLongValue c.name lid.value)

theorem insertTagged (schema : Schema) (c : Column) (flags : ValueFlags) (bytes : Bytes) :
    Fills (insertTagged schema c flags bytes) () (taggedCells schema.longValues c flags bytes) := by
  unfold Record.insertTagged taggedCells
  split
  · exact pure ()
  · split
    · exact warn c (.bytes bytes) (.multiValue c.name)
    · split
      · exact insertLongValue schema c flags.compressed bytes
      · exact insertContent c flags.compressed bytes

/-- What fills in the cells of a row from the start makes that row. -/
theorem decode_eq {schema : Schema} {record : Bytes} {cells : Except DecodeError (List Cell)}
    (h : Fills (decodeInto schema record) () cells) : decode schema record = cells.map rowOf := by
  unfold decode
  cases cells with
  | error e =>
    obtain ⟨draft, h⟩ := h {}
    rw [show decodeInto schema record {} = .error e draft from h]
    rfl
  | ok cs =>
    obtain ⟨remarks, h⟩ := h {}
    rw [show decodeInto schema record {} = .ok () ⟨addCells {} cs, remarks⟩ from h]
    rfl

end Fills

end Ese.Record
