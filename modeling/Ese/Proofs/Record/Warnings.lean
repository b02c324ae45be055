import Mathlib
import Ese.Proofs.Outcome
import Ese.Proofs.Record.RoundTrip
/-!
Warnings of a row. Where a tagged value is not decoded to its end the row says so: with several
values in one, with a reference that leads nowhere and with text that is left compressed. The values
are taken from the directory of the record, apart from decoding, and the warnings of a row are
exactly those that they call for.
-/

namespace Ese.Text.Compressed

/-- Only the one marker is left compressed. -/
theorem decode_eq_none_iff {bytes : List UInt8} :
    decode bytes = none ↔ bytes.head? = some lzxpressMarker := by
  have hclass : classify bytes = .lzxpress ↔ bytes.head? = some lzxpressMarker := by
    rcases bytes with _ | ⟨marker, rest⟩
    · simp [classify]
    · have hunmarked : classifyUnmarked (marker :: rest) ≠ .lzxpress := by
        unfold classifyUnmarked
        split <;> exact nofun
      rw [classify, List.head?_cons, Option.some.injEq]
      split
      · rename_i hmarker
        exact iff_of_true rfl hmarker
      · rename_i hmarker
        split
        · exact iff_of_false nofun hmarker
        · exact iff_of_false hunmarked hmarker
  rw [← hclass]
  unfold decode
  rcases classify bytes <;> simp

end Ese.Text.Compressed

namespace Ese.Record

/-! The tagged values of a record -/

/-- A tagged value as it is stored. -/
structure TaggedEntry where
  column : Column
  flags : ValueFlags
  content : Bytes
  deriving DecidableEq, Repr

/-- A value ends where the next one starts, and the last one with the record. -/
def endOf (record : Bytes) (start : Nat) : List Slot → Nat
  | [] => record.length
  | next :: _ => start + next.offset

def entryAt (table : Table) (record : Bytes) (start last : Nat) (slot : Slot) :
    Option TaggedEntry :=
  (table.columns.byId? slot.id.toUInt32).map fun column =>
    let first := start + slot.offset
    let (flags, content) := splitFlags slot.hasFlags ((record.drop first).take (last - first))
    { column, flags, content }

def entriesAt (table : Table) (record : Bytes) (start : Nat) : List Slot → List TaggedEntry
  | [] => []
  | slot :: slots =>
    (entryAt table record start (endOf record start slots) slot).toList ++
      entriesAt table record start slots

/-- Where the last of the first `count` variable values ends. -/
def lastEnd (record : Bytes) (h : Header) : (count : Nat) → Except DecodeError Nat
  | 0 => .ok 0
  | index + 1 => do
    let raw ← readU16 record (h.directoryStart + 2 * index) .variableDirectory
    return (VariableEnd.ofRaw raw).position

def taggedEntries (schema : Schema) (record : Bytes) : Except DecodeError (List TaggedEntry) := do
  let header ← Header.read record
  let last ← lastEnd record header header.variableCount
  let slots ← readSlots schema.layout record (header.variableStart + last)
  return entriesAt schema.table record (header.variableStart + last) slots

namespace TaggedEntry

/-- The bytes of a value: those in the record, or those that a reference in the record leads to. -/
def bytes? (longValues : LongValues) (e : TaggedEntry) : Option Bytes :=
  if e.flags.longValue then (Lid.ofReference e.content).toOption.bind longValues.get?
  else some e.content

/-- The value is not what ends up in the row, and calls for this warning. -/
inductive Shortfall (longValues : LongValues) (e : TaggedEntry) : Warning → Prop where
  | several : e.flags.null = false → e.flags.multiple →
    Shortfall longValues e (.multiValue e.column.name)
  | missing {lid : Lid} : e.flags.null = false → e.flags.multiple = false → e.flags.longValue →
    Lid.ofReference e.content = .ok lid → longValues.get? lid = none →
    Shortfall longValues e (.missingLongValue e.column.name lid.value)
  | compressed {bytes : Bytes} : e.flags.null = false → e.flags.multiple = false →
    e.flags.compressed → e.column.type.isText → e.bytes? longValues = some bytes →
    bytes.head? = some Text.Compressed.lzxpressMarker →
    Shortfall longValues e (.lzxpress e.column.name)

theorem Shortfall.column {longValues : LongValues} {e : TaggedEntry} {w : Warning}
    (h : Shortfall longValues e w) : w.column = e.column.name := by
  rcases h with _ | _ | _ <;> rfl

end TaggedEntry

/-! What decoding adds to the warnings -/

variable {α β : Type}

/-- A step that succeeds adds these warnings to whatever row it finds. -/
def Warns (d : Decode α) (p : Warning → Prop) : Prop :=
  ∀ draft a draft', d draft = .ok a draft' →
    ∃ ws, draft'.row.warnings = draft.row.warnings ++ ws ∧ ∀ w, w ∈ ws ↔ p w

theorem Decode.of_bind_ok {d : Decode α} {f : α → Decode β} {draft draft' : Draft} {b : β}
    (h : (d >>= f) draft = .ok b draft') :
    ∃ a mid, d draft = .ok a mid ∧ f a mid = .ok b draft' := by
  change EStateM.bind d f draft = _ at h
  unfold EStateM.bind at h
  rcases hd : d draft with ⟨a, mid⟩ | ⟨e, mid⟩
  · rw [hd] at h
    exact ⟨a, mid, rfl, h⟩
  · rw [hd] at h
    cases h

theorem Decode.of_lift_ok {x : Except DecodeError α} {draft draft' : Draft} {a : α}
    (h : (liftM x : Decode α) draft = .ok a draft') : x = .ok a ∧ draft' = draft := by
  rcases x with e | a'
  · cases h
  · cases h
    exact ⟨rfl, rfl⟩

theorem decodeSlots_cons (schema : Schema) (record : Bytes) (start : Nat) (slot : Slot)
    (slots : List Slot) :
    decodeSlots schema record start (slot :: slots) =
      (decodeSlot schema record start slot (endOf record start slots) >>= fun _ =>
        decodeSlots schema record start slots) := by
  rcases slots with _ | ⟨next, slots⟩
  · exact (bind_pure _).symm
  · rfl

/-- A record that decodes does so area by area. -/
theorem of_decode_ok {schema : Schema} {record : Bytes} {row : Row}
    (h : decode schema record = .ok row) :
    ∃ header fixed last varying slots draft, Header.read record = .ok header ∧
      decodeFixed schema record header {} = .ok () fixed ∧
      decodeVariableFrom schema record header header.variableCount 0 0 fixed = .ok last varying ∧
      readSlots schema.layout record (header.variableStart + last) = .ok slots ∧
      decodeSlots schema record (header.variableStart + last) slots varying = .ok () draft ∧
      draft.row = row := by
  obtain ⟨draft, hinto, hrow⟩ : ∃ draft, decodeInto schema record {} = .ok () draft ∧
      draft.row = row := by
    unfold decode at h
    split at h
    · rename_i draft hdraft
      exact ⟨draft, hdraft, Except.ok.inj h⟩
    · cases h
  obtain ⟨header, _, hread, hareas⟩ := Decode.of_bind_ok hinto
  obtain ⟨hheader, rfl⟩ := Decode.of_lift_ok hread
  obtain ⟨_, fixed, hfixed, hrest⟩ := Decode.of_bind_ok hareas
  obtain ⟨start, varying, hvariable, htagged⟩ := Decode.of_bind_ok hrest
  obtain ⟨last, _, hlast, hstart⟩ := Decode.of_bind_ok hvariable
  cases hstart
  obtain ⟨slots, _, hdirectory, hvalues⟩ := Decode.of_bind_ok htagged
  obtain ⟨hslots, rfl⟩ := Decode.of_lift_ok hdirectory
  exact ⟨header, fixed, last, _, slots, draft, hheader, hfixed, hlast, hslots, hvalues, hrow⟩

namespace Warns

variable {d : Decode α} {f : α → Decode β} {p q : Warning → Prop}

theorem of_iff (h : Warns d p) (hiff : ∀ w, p w ↔ q w) : Warns d q := by
  intro draft a draft' hd
  obtain ⟨ws, hws, hmem⟩ := h draft a draft' hd
  exact ⟨ws, hws, fun w => (hmem w).trans (hiff w)⟩

theorem pure (a : α) : Warns (pure a : Decode α) fun _ => False := by
  rintro draft _ _ ⟨⟩
  exact ⟨[], (List.append_nil _).symm, by simp⟩

theorem throw (e : DecodeError) : Warns (throw e : Decode α) p := by
  rintro draft _ _ ⟨⟩

theorem lift (x : Except DecodeError α) : Warns (liftM x : Decode α) fun _ => False := by
  intro draft a draft' h
  obtain ⟨-, rfl⟩ := Decode.of_lift_ok h
  exact ⟨[], (List.append_nil _).symm, by simp⟩

theorem bind (h : Warns d p) (hf : ∀ a, Warns (f a) q) : Warns (d >>= f) fun w => p w ∨ q w := by
  intro draft b draft' hd
  obtain ⟨a, mid, hfirst, hrest⟩ := Decode.of_bind_ok hd
  obtain ⟨ws, hws, hmem⟩ := h draft a mid hfirst
  obtain ⟨more, hmore, hmem'⟩ := hf a mid b draft' hrest
  refine ⟨ws ++ more, by rw [hmore, hws, List.append_assoc], fun w => ?_⟩
  rw [List.mem_append, hmem, hmem']

theorem after (h : Warns d fun _ => False) (hf : ∀ a, Warns (f a) q) : Warns (d >>= f) q :=
  (h.bind hf).of_iff fun w => by rw [false_or]

theorem read {x : Except DecodeError α} (hf : ∀ a, x = .ok a → Warns (f a) q) :
    Warns (liftM x >>= f) q := by
  intro draft b draft' hd
  obtain ⟨a, mid, hread, hrest⟩ := Decode.of_bind_ok hd
  obtain ⟨hx, rfl⟩ := Decode.of_lift_ok hread
  exact hf a hx mid b draft' hrest

theorem insert (c : Column) (v : Value) : Warns (Record.insert c v) fun _ => False := by
  rintro draft _ _ ⟨⟩
  exact ⟨[], (List.append_nil _).symm, by simp⟩

theorem warn (w : Warning) : Warns (Record.warn w) fun w' => w' = w := by
  rintro draft _ _ ⟨⟩
  exact ⟨[w], rfl, by simp⟩

theorem remark (r : Trace.Remark) : Warns (Record.remark r) fun _ => False := by
  rintro draft _ _ ⟨⟩
  exact ⟨[], (List.append_nil _).symm, by simp⟩

theorem insertPlain (c : Column) (bytes : Bytes) :
    Warns (Record.insertPlain c bytes) fun _ => False :=
  (lift _).after fun _ => insert c _

/-! The fixed and the variable columns are silent -/

theorem decodeFixedFrom (record bitmap : Bytes) (lastFixed : UInt8) (columns : List Column)
    (offset : Nat) :
    Warns (Record.decodeFixedFrom record bitmap lastFixed columns offset) fun _ => False := by
  induction columns generalizing offset with
  | nil => exact pure ()
  | cons c columns ih =>
    rw [Record.decodeFixedFrom]
    split
    · exact pure ()
    split
    · exact throw _
    refine read fun bytes _ => read fun null _ => ?_
    cases null
    · exact (insertPlain c bytes).after fun _ => ih _
    · exact (pure _).after fun _ => ih _

theorem decodeFixed (schema : Schema) (record : Bytes) (h : Header) :
    Warns (Record.decodeFixed schema record h) fun _ => False :=
  read fun bitmap _ => decodeFixedFrom record bitmap h.lastFixed _ _

theorem decodeVariableValue (schema : Schema) (record : Bytes) (h : Header)
    (index previous last : Nat) :
    Warns (Record.decodeVariableValue schema record h index previous last) fun _ => False := by
  unfold Record.decodeVariableValue
  split
  · exact throw _
  refine read fun bytes _ => ?_
  split
  · exact insertPlain _ bytes
  · exact pure ()

theorem decodeVariableFrom (schema : Schema) (record : Bytes) (h : Header)
    (remaining index previous : Nat) :
    Warns (Record.decodeVariableFrom schema record h remaining index previous) fun _ => False := by
  induction remaining generalizing index previous with
  | zero => exact pure previous
  | succ remaining ih =>
    rw [Record.decodeVariableFrom]
    refine read fun raw _ => ?_
    dsimp only
    split
    · exact ih _ _
    · exact (decodeVariableValue schema record h index previous _).after fun _ => ih _ _

/-! The tagged columns -/

theorem insertContent (c : Column) (compressed : Bool) (bytes : Bytes) :
    Warns (Record.insertContent c compressed bytes) fun w =>
      (compressed ∧ c.type.isText ∧ bytes.head? = some Text.Compressed.lzxpressMarker) ∧
        w = .lzxpress c.name := by
  unfold Record.insertContent
  split
  · rename_i htext
    obtain ⟨hcompressed, htext⟩ := Bool.and_eq_true_iff.mp htext
    rcases htaken : Text.Compressed.decode bytes with _ | text
    · have hmarker := Text.Compressed.decode_eq_none_iff.mp htaken
      refine Warns.of_iff (p := fun w => w = .lzxpress c.name) ?_ fun w =>
        ⟨fun hw => ⟨⟨hcompressed, htext, hmarker⟩, hw⟩, fun hw => hw.2⟩
      exact (remark _).after fun _ => (remark _).after fun _ => (insert c _).after fun _ => warn _
    · have hmarker : bytes.head? ≠ some Text.Compressed.lzxpressMarker := by
        rw [ne_eq, ← Text.Compressed.decode_eq_none_iff, htaken]
        exact Option.some_ne_none text
      exact (insert c _).of_iff fun w => ⟨False.elim, fun hw => hmarker hw.1.2.2⟩
  · rename_i hplain
    exact (insertPlain c bytes).of_iff fun w =>
      ⟨False.elim, fun hw => hplain (Bool.and_eq_true_iff.mpr ⟨hw.1.1, hw.1.2.1⟩)⟩

/-- A reference is looked up first. -/
theorem insertLongValue (schema : Schema) {e : TaggedEntry} (hnull : e.flags.null = false)
    (hsingle : e.flags.multiple = false) (hlong : e.flags.longValue) :
    Warns (Record.insertLongValue schema e.column e.flags.compressed e.content)
      (e.Shortfall schema.longValues) := by
  refine read fun lid hlid => ?_
  have hbytes : e.bytes? schema.longValues = schema.longValues.get? lid := by
    rw [TaggedEntry.bytes?, if_pos hlong, hlid]
    rfl
  rcases hfound : schema.longValues.get? lid with _ | bytes
  · refine ((insert e.column _).after fun _ => warn _).of_iff fun w => ⟨?_, fun h => ?_⟩
    · rintro rfl
      exact .missing hnull hsingle hlong hlid hfound
    · rcases h with ⟨_, hmultiple⟩ | @⟨lid', _, _, _, hlid'⟩ | ⟨_, _, _, _, hsome⟩
      · exact absurd hmultiple (by simp [hsingle])
      · rw [Except.ok.inj (hlid.symm.trans hlid')]
      · rw [hbytes, hfound] at hsome
        cases hsome
  · refine (insertContent e.column e.flags.compressed bytes).of_iff fun w => ⟨?_, fun h => ?_⟩
    · rintro ⟨⟨hcompressed, htext, hmarker⟩, rfl⟩
      exact .compressed hnull hsingle hcompressed htext (hbytes.trans hfound) hmarker
    · rcases h with ⟨_, hmultiple⟩ | ⟨_, _, _, hlid', hmissing⟩ |
        ⟨_, _, hcompressed, htext, hsome, hmarker⟩
      · exact absurd hmultiple (by simp [hsingle])
      · rw [← Except.ok.inj (hlid.symm.trans hlid'), hfound] at hmissing
        cases hmissing
      · rw [hbytes, hfound] at hsome
        cases hsome
        exact ⟨⟨hcompressed, htext, hmarker⟩, rfl⟩

theorem insertTagged (schema : Schema) (e : TaggedEntry) :
    Warns (Record.insertTagged schema e.column e.flags e.content)
      (e.Shortfall schema.longValues) := by
  unfold Record.insertTagged
  split
  · rename_i hnull
    refine (pure ()).of_iff fun w => ⟨False.elim, fun h => ?_⟩
    rcases h with ⟨hpresent⟩ | ⟨hpresent⟩ | ⟨hpresent⟩ <;> exact absurd hnull (by simp [hpresent])
  rename_i hnull
  have hnull := Bool.eq_false_of_not_eq_true hnull
  split
  · rename_i hmultiple
    refine ((insert e.column _).after fun _ => warn _).of_iff fun w => ⟨?_, fun h => ?_⟩
    · rintro rfl
      exact .several hnull hmultiple
    · rcases h with _ | ⟨_, hsingle⟩ | ⟨_, hsingle⟩
      · rfl
      · exact absurd hmultiple (by simp [hsingle])
      · exact absurd hmultiple (by simp [hsingle])
  rename_i hsingle
  have hsingle := Bool.eq_false_of_not_eq_true hsingle
  split
  · rename_i hlong
    exact insertLongValue schema hnull hsingle hlong
  rename_i hinline
  have hbytes : e.bytes? schema.longValues = some e.content := if_neg hinline
  refine (insertContent e.column e.flags.compressed e.content).of_iff fun w => ⟨?_, fun h => ?_⟩
  · rintro ⟨⟨hcompressed, htext, hmarker⟩, rfl⟩
    exact .compressed hnull hsingle hcompressed htext hbytes hmarker
  · rcases h with ⟨_, hmultiple⟩ | ⟨_, _, hlong⟩ | ⟨_, _, hcompressed, htext, hsome, hmarker⟩
    · exact absurd hmultiple (by simp [hsingle])
    · exact absurd hlong hinline
    · rw [hbytes] at hsome
      cases hsome
      exact ⟨⟨hcompressed, htext, hmarker⟩, rfl⟩

theorem decodeSlot (schema : Schema) (record : Bytes) (start last : Nat) (slot : Slot) :
    Warns (Record.decodeSlot schema record start slot last) fun w =>
      ∃ e ∈ entryAt schema.table record start last slot, e.Shortfall schema.longValues w := by
  unfold Record.decodeSlot
  dsimp only
  split
  · exact throw _
  refine read fun bytes hslice => ?_
  obtain ⟨-, rfl⟩ := slice_eq_ok_iff.mp hslice
  unfold entryAt
  rcases schema.table.columns.byId? slot.id.toUInt32 with _ | column
  · exact (remark _).of_iff fun w => by simp
  · exact (insertTagged schema ⟨column, _, _⟩).of_iff fun w => by simp

theorem decodeSlots (schema : Schema) (record : Bytes) (start : Nat) (slots : List Slot) :
    Warns (Record.decodeSlots schema record start slots) fun w =>
      ∃ e ∈ entriesAt schema.table record start slots, e.Shortfall schema.longValues w := by
  induction slots with
  | nil => exact (pure ()).of_iff fun w => by simp [entriesAt]
  | cons slot slots ih =>
    rw [decodeSlots_cons]
    refine ((decodeSlot schema record start _ slot).bind fun _ => ih).of_iff fun w => ?_
    simp only [entriesAt, List.mem_append, Option.mem_toList, Option.mem_def, or_and_right,
      exists_or]

end Warns

theorem lastEnd_decodeVariableFrom {schema : Schema} {record : Bytes} {h : Header}
    {remaining index previous last : Nat} {draft draft' : Draft}
    (hprevious : lastEnd record h index = .ok previous)
    (hd : decodeVariableFrom schema record h remaining index previous draft = .ok last draft') :
    lastEnd record h (index + remaining) = .ok last := by
  induction remaining generalizing index previous draft with
  | zero =>
    cases hd
    exact hprevious
  | succ remaining ih =>
    rw [decodeVariableFrom] at hd
    obtain ⟨raw, mid, hread, hd⟩ := Decode.of_bind_ok hd
    obtain ⟨hraw, -⟩ := Decode.of_lift_ok hread
    have hnext : lastEnd record h (index + 1) = .ok (VariableEnd.ofRaw raw).position := by
      rw [lastEnd, hraw]
      rfl
    rw [Nat.add_comm remaining 1, ← Nat.add_assoc]
    dsimp only at hd
    split at hd
    · exact ih hnext hd
    · obtain ⟨_, _, -, hd⟩ := Decode.of_bind_ok hd
      exact ih hnext hd

/-- A row has the warnings that the tagged values of its record call for, and no others. -/
theorem mem_warnings_iff {schema : Schema} {record : Bytes} {row : Row}
    (h : decode schema record = .ok row) :
    ∃ entries, taggedEntries schema record = .ok entries ∧
      ∀ w, w ∈ row.warnings ↔ ∃ e ∈ entries, e.Shortfall schema.longValues w := by
  obtain ⟨header, fixed, last, varying, slots, draft, hheader, hfixed, hlast, hslots, hvalues,
    rfl⟩ := of_decode_ok h
  have hend : lastEnd record header header.variableCount = .ok last := by
    have hnone : lastEnd record header 0 = .ok 0 := rfl
    have hspec := lastEnd_decodeVariableFrom hnone hlast
    rwa [Nat.zero_add] at hspec
  have hentries : taggedEntries schema record =
      .ok (entriesAt schema.table record (header.variableStart + last) slots) := by
    rw [taggedEntries, hheader]
    simp only [bind, Except.bind, hend, hslots]
    rfl
  obtain ⟨first, hfirst, hnone⟩ := Warns.decodeFixed schema record header _ _ _ hfixed
  obtain ⟨second, hsecond, hnone'⟩ :=
    Warns.decodeVariableFrom schema record header _ _ _ _ _ _ hlast
  obtain ⟨third, hthird, hmem⟩ := Warns.decodeSlots schema record _ slots _ _ _ hvalues
  refine ⟨_, hentries, fun w => ?_⟩
  rw [hthird, hsecond, hfirst, List.mem_append, List.mem_append, List.mem_append, hnone, hnone',
    hmem]
  simp

/-- A tagged value that falls short has a warning that names its column. -/
theorem warnings_decode {schema : Schema} {record : Bytes} {row : Row}
    (h : decode schema record = .ok row) :
    ∃ entries, taggedEntries schema record = .ok entries ∧
      ∀ e ∈ entries, ∀ w, e.Shortfall schema.longValues w →
        w ∈ row.warnings ∧ w.column = e.column.name := by
  obtain ⟨entries, hentries, hwarnings⟩ := mem_warnings_iff h
  exact ⟨entries, hentries, fun e he w hw => ⟨(hwarnings w).mpr ⟨e, he, hw⟩, hw.column⟩⟩

def documents : Table where
  name := "Documents"
  objectId := 1
  root := ⟨5⟩
  columns := Columns.empty.insert ⟨256, "Body", .longText, 0, 0, 1252⟩
    |>.insert ⟨257, "Raw", .longBinary, 0, 0, 0⟩

def documentLayout : Layout := ⟨0x620, 0x11, 8192⟩

/-- Text that is left compressed, and two values in one. -/
def unfinished : Bytes :=
  Build.Record.encode documentLayout
    { tagged := [⟨256, 0x02, [0x18, 0x41]⟩, ⟨257, 0x08, [1, 2]⟩] }

def unfinishedEntries : List TaggedEntry :=
  [⟨⟨256, "Body", .longText, 0, 0, 1252⟩, ⟨0x02⟩, [0x18, 0x41]⟩,
    ⟨⟨257, "Raw", .longBinary, 0, 0, 0⟩, ⟨0x08⟩, [1, 2]⟩]

theorem shortfall_unfinished : ∀ e ∈ unfinishedEntries, ∃ w, e.Shortfall {} w := by
  simp only [unfinishedEntries, List.mem_cons, List.not_mem_nil, or_false, forall_eq_or_imp,
    forall_eq]
  exact ⟨⟨_, .compressed rfl rfl rfl rfl rfl rfl⟩, ⟨_, .several rfl rfl⟩⟩

theorem warnings_unfinished :
    decode ⟨documents, documentLayout, {}⟩ unfinished = .ok {
        columns := [("Body", .bytes [0x18, 0x41]), ("Raw", .bytes [1, 2])]
        warnings := [.lzxpress "Body", .multiValue "Raw"] } ∧
      taggedEntries ⟨documents, documentLayout, {}⟩ unfinished = .ok unfinishedEntries ∧
      ∀ e ∈ unfinishedEntries, (∃ w, e.Shortfall {} w) ∧ ∀ w, e.Shortfall {} w →
        w ∈ [Warning.lzxpress "Body", .multiValue "Raw"] ∧ w.column = e.column.name := by
  have hrow : decode ⟨documents, documentLayout, {}⟩ unfinished = .ok {
      columns := [("Body", .bytes [0x18, 0x41]), ("Raw", .bytes [1, 2])]
      warnings := [.lzxpress "Body", .multiValue "Raw"] } := by
    decide +kernel
  have hentries : taggedEntries ⟨documents, documentLayout, {}⟩ unfinished =
      .ok unfinishedEntries := by
    decide +kernel
  obtain ⟨entries, htaken, hall⟩ := warnings_decode hrow
  obtain rfl := Except.ok.inj (htaken.symm.trans hentries)
  exact ⟨hrow, hentries, fun e he => ⟨shortfall_unfinished e he, hall e he⟩⟩

/-! What goes without a warning -/

/-- The value in the row is not all of the value, whatever its column. -/
inductive TaggedEntry.Incomplete (longValues : LongValues) (e : TaggedEntry) : Prop where
  | shortfall {w : Warning} : e.Shortfall longValues w → Incomplete longValues e
  /-- Any data with the marker that is marked as compressed. -/
  | compressed {bytes : Bytes} : e.flags.null = false → e.flags.multiple = false →
    e.flags.compressed → e.bytes? longValues = some bytes →
    bytes.head? = some Text.Compressed.lzxpressMarker → Incomplete longValues e
  | segments {lid : Lid} {key : Bytes} : e.flags.null = false → e.flags.multiple = false →
    e.flags.longValue → Lid.ofReference e.content = .ok lid → (longValues.get? lid).isSome →
    key ∈ longValues.segments → key.take 4 = lid.key.take 4 → key.drop 4 ≠ [0, 0, 0, 0] →
    Incomplete longValues e

/-- The record decodes to a row with an incomplete value, and no warning names its column. -/
def Silent (schema : Schema) (record : Bytes) : Prop :=
  ∃ row entries, decode schema record = .ok row ∧ taggedEntries schema record = .ok entries ∧
    ∃ e ∈ entries, e.Incomplete schema.longValues ∧ ∀ w ∈ row.warnings, w.column ≠ e.column.name

def packed : Bytes :=
  Build.Record.encode documentLayout { tagged := [⟨257, 0x02, [0x18, 0xFF, 0xFE, 0x80]⟩] }

def twoSegments : LongValues :=
  (LongValues.insert {} (Lid.key ⟨1⟩) [0x61]).insert [1, 0, 0, 0, 0, 0, 0, 1] [0x62]

theorem get?_twoSegments : twoSegments.get? ⟨1⟩ = some [0x61] := by
  unfold twoSegments LongValues.get? LongValues.insert
  rw [Std.HashMap.getElem?_insert, if_neg (by decide), Std.HashMap.getElem?_insert,
    if_pos (by decide)]

theorem mem_twoSegments : [1, 0, 0, 0, 0, 0, 0, 1] ∈ twoSegments.segments :=
  Std.HashMap.mem_insert_self

def referring : Build.Record := { tagged := [⟨257, 0x04, [0, 0, 0, 1]⟩] }

theorem decode_referring {longValues : LongValues} (h : longValues.get? ⟨1⟩ = some [0x61]) :
    decode ⟨documents, documentLayout, longValues⟩ (referring.encode documentLayout) =
      .ok ⟨[("Raw", .bytes [0x61])], []⟩ := by
  have hfits : referring.Fits documents documentLayout := by decide
  have hcell : Build.Record.fieldCells documents longValues ⟨257, 0x04, [0, 0, 0, 1]⟩ =
      .ok [⟨"Raw", .bytes [0x61], none⟩] := by
    change (longValueCell longValues ⟨257, "Raw", .longBinary, 0, 0, 0⟩ false
      [0, 0, 0, 1]).map ([·]) = _
    rw [longValueCell, show Lid.ofReference [0, 0, 0, 1] = .ok ⟨1⟩ from rfl]
    simp only [bind, Except.bind, h]
    rfl
  rw [(Build.Record.fills_record longValues hfits).decode_eq, Build.Record.cells,
    show referring.tagged = [⟨257, 0x04, [0, 0, 0, 1]⟩] from rfl, joined_cons, hcell]
  rfl

/-- Only text is looked at for the marker, and only first segments are looked up. -/
theorem silent_documents :
    Silent ⟨documents, documentLayout, {}⟩ packed ∧
      Silent ⟨documents, documentLayout, twoSegments⟩ (referring.encode documentLayout) := by
  constructor
  · refine ⟨⟨[("Raw", .bytes [0x18, 0xFF, 0xFE, 0x80])], []⟩,
      [⟨⟨257, "Raw", .longBinary, 0, 0, 0⟩, ⟨0x02⟩, [0x18, 0xFF, 0xFE, 0x80]⟩],
      by decide +kernel, by decide +kernel, _, List.mem_cons_self, ?_, by simp⟩
    exact .compressed (by decide) (by decide) (by decide) rfl rfl
  · refine ⟨⟨[("Raw", .bytes [0x61])], []⟩,
      [⟨⟨257, "Raw", .longBinary, 0, 0, 0⟩, ⟨0x04⟩, [0, 0, 0, 1]⟩],
      decode_referring get?_twoSegments, by decide +kernel, _, List.mem_cons_self, ?_, by simp⟩
    have hlid : Lid.ofReference [0, 0, 0, 1] = .ok ⟨1⟩ := rfl
    exact .segments (by decide) (by decide) (by decide) hlid
      (Option.isSome_of_eq_some get?_twoSegments) mem_twoSegments (by decide) (by decide)

end Ese.Record
