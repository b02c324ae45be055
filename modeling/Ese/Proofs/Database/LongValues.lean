import Mathlib
import Ese.LongValues
import Ese.Proofs.Bytes.Read
import Ese.Proofs.Database.Simulation
import Ese.Proofs.Tree.Roots
import Ese.Proofs.Tree.SharedKeys
/-!
Long values are found by their references. What is loaded for a table is the entries of its
long-value trees, one after the other, and of entries with one key the last stays. A reference leads
to the last entry whose key is the reference backwards and the offset zero.
-/

namespace Ese

open Ese.Tree

/-! References -/

/-- The key that a reference leads to: its first four bytes backwards, then the offset zero. -/
def referenceKey (reference : Bytes) : Bytes := (reference.take 4).reverse ++ [0, 0, 0, 0]

namespace Lid

theorem ofReference_ok {reference : Bytes} (h : 4 ≤ reference.length) :
    ∃ lid, ofReference reference = .ok lid ∧ lid.key = referenceKey reference := by
  match reference, h with
  | a :: b :: c :: d :: rest, _ =>
    refine ⟨_, rfl, ?_⟩
    have hbytes := LittleEndian.encode_decode [d, c, b, a]
    rw [key, LittleEndian.toNat_decode rfl]
    exact congrArg (· ++ [0, 0, 0, 0]) hbytes

theorem ofReference_short {reference : Bytes} (h : reference.length < 4) :
    ofReference reference = .error (.truncated .longValueReference 0 4 reference.length) := by
  match reference, h with
  | [], _ | [_], _ | [_, _], _ | [_, _, _], _ => rfl

theorem key_of_ofReference {reference : Bytes} {lid : Lid} (h : ofReference reference = .ok lid) :
    lid.key = referenceKey reference := by
  rcases Nat.lt_or_ge reference.length 4 with hshort | hlong
  · cases h.symm.trans (ofReference_short hshort)
  · obtain ⟨_, hlid, hkey⟩ := ofReference_ok hlong
    cases h.symm.trans hlid
    exact hkey

end Lid

theorem referenceKey_inj {a b : Bytes} :
    referenceKey a = referenceKey b ↔ a.take 4 = b.take 4 := by
  rw [referenceKey, referenceKey, List.append_left_inj, List.reverse_inj]

namespace LongValues

/-! Loading -/

def entryOf (leaf : Leaf) : Except DecodeError (Bytes × Bytes) :=
  leaf.split.map fun (key, payload) => (key.bytes, payload)

def add (lv : LongValues) (e : Bytes × Bytes) : LongValues := lv.insert e.1 e.2

def take (leaf : Leaf) : Callback LongValues Unit := fun lv =>
  match entryOf leaf with
  | .ok e => .ok () (lv.add e)
  | .error e => .error (.decode e) lv

theorem calls_onLeaf (file : File) (trace : Trace.Switches) (table : Table) :
    (Visitor.ofFile file trace (onLeaf trace table)).Calls take := by
  intro leaf w
  change Walk.onState (Walk.ofRun (onLeaf trace table leaf) w) = take leaf w.journal.state
  unfold Walk.ofRun onLeaf take entryOf
  rw [bind_apply, liftM_apply]
  rcases leaf.split with e | ⟨key, payload⟩
  · rfl
  · obtain ⟨log, hlog⟩ := logIf_apply trace.longValues
      (.longValueSegment table.name leaf.page.id key.bytes payload.length) w.journal
    simp only [bind_apply, hlog]
    rfl

/-- The entries of the long-value trees of a table, in the order in which they are walked. -/
def entries (file : File) (table : Table) : Except Error (List (Bytes × Bytes)) :=
  let (leaves, answer) := harvestAll file (table.longValues.map (·.root))
  match leaves.mapM entryOf with
  | .error e => .error (.decode e)
  | .ok es => answer.map fun _ => es

theorem forM_take (ls : List Leaf) (lv : LongValues) :
    match ls.mapM entryOf with
    | .ok es => ls.forM take lv = .ok () (es.foldl add lv)
    | .error e => ∃ lv', ls.forM take lv = .error (.decode e) lv' := by
  induction ls generalizing lv with
  | nil => rfl
  | cons l ls ih =>
    rw [forM_cons_apply, take, List.mapM_cons]
    rcases entryOf l with e | pair
    · exact ⟨lv, rfl⟩
    · have hrest := ih (lv.add pair)
      rcases hsplit : ls.mapM entryOf with e | es <;>
      · rw [hsplit] at hrest
        exact hrest

theorem take_entries {file : File} {table : Table} {ls : List Leaf} {answer : Except Error Unit}
    (h : harvestAll file (table.longValues.map (·.root)) = (ls, answer)) :
    match entries file table with
    | .ok es => (ls.forM take >>= fun _ => conclude answer) {} = .ok () (es.foldl add {})
    | .error e => ∃ lv, (ls.forM take >>= fun _ => conclude answer) {} = .error e lv := by
  have htake := forM_take ls {}
  unfold entries
  rw [h, bind_apply]
  dsimp only
  rcases hsplit : ls.mapM entryOf with e | es <;> rw [hsplit] at htake
  · obtain ⟨lv, htake⟩ := htake
    rw [htake]
    exact ⟨lv, rfl⟩
  · rw [htake]
    rcases answer with e | u
    · exact ⟨_, rfl⟩
    · rfl

/-- What is loaded is made of the entries alone. -/
theorem load_eq (file : File) (trace : Trace.Switches) (table : Table) (log : Array Trace.Event) :
    ∃ log', load file trace table log = match entries file table with
      | .ok es => .ok (es.foldl add {}) log'
      | .error e => .error e log' := by
  have hsurvey := onState_surveyAll (calls_onLeaf file trace table) (table.longValues.map (·.root))
    { log, state := {} }
  rcases hall : harvestAll file (table.longValues.map (·.root)) with ⟨ls, answer⟩
  have htake := take_entries hall
  rw [hall] at hsurvey
  unfold load
  dsimp only at hsurvey ⊢
  rcases hentries : entries file table with e | es <;> rw [hentries] at htake
  · obtain ⟨lv, htake⟩ := htake
    rw [htake, bind_apply] at hsurvey
    generalize Visitor.survey _ _ _ = surveyed at hsurvey ⊢
    rcases surveyed with ⟨n, j⟩ | ⟨e', j⟩ <;> cases hsurvey
    exact ⟨j.log, rfl⟩
  · rw [htake, bind_apply] at hsurvey
    generalize Visitor.survey _ _ _ = surveyed at hsurvey ⊢
    rcases surveyed with ⟨n, j⟩ | ⟨e', j⟩
    · obtain ⟨-, hstate⟩ := EStateM.Result.ok.inj hsurvey
      exact ⟨_, congrArg (EStateM.Result.ok · _) hstate⟩
    · cases hsurvey

theorem unaware (file : File) (trace : Trace.Switches) (table : Table) :
    (Visitor.ofFile file trace (onLeaf trace table)).Unaware := fun told =>
  Seen.visitor (Trace.sifts_append told trace) file
    (seen_onLeaf (Trace.sifts_append told trace) table)

/-- A tree that starts on a page of the trees before it makes no difference to what is loaded. -/
theorem load_insert {file : File} {trace : Trace.Switches} {table : Table}
    {front back : List LongValueSlot} {slot : LongValueSlot} {log log' : Array Trace.Event}
    {lv : LongValues} (hslots : table.longValues = front ++ back)
    (hroot : Reachable file.readPage (front.map (·.root)) slot.root)
    (h : load file trace table log = .ok lv log') :
    ∃ told more, log' = told ++ more ∧
      load file trace { table with longValues := front ++ slot :: back } log =
        .ok lv (told.push (.alreadyVisited slot.root) ++ more) := by
  unfold load at h ⊢
  simp only [hslots, List.map_append, List.map_cons] at h ⊢
  generalize hsurvey : Visitor.survey _ _ _ = surveyed at h
  rcases surveyed with ⟨n, j⟩ | ⟨e, j⟩
  · cases h
    obtain ⟨told, more, hlog, hinsert⟩ :=
      survey_insert (fun _ => rfl) (unaware file trace table) hroot hsurvey
    refine ⟨told, more.push (.longValuesIndexed table.name j.state.size), ?_, ?_⟩
    · rw [hlog, Array.push_append]
    · -- an entry is logged with the name of the table, and with nothing else of it
      have hleaf : onLeaf trace { table with longValues := front ++ slot :: back } =
          onLeaf trace table := rfl
      rw [hleaf, hinsert, Array.append_push]
  · cases h

/-- The entries are those of the pages that can be reached, page by page, each page once. -/
theorem pages_of_entries {file : File} {table : Table} {es : List (Bytes × Bytes)}
    (h : entries file table = .ok es) :
    ∃ pages : List PageId, pages.Nodup ∧
      (∀ id, id ∈ pages ↔ Reachable file.readPage (table.longValues.map (·.root)) id) ∧
      (pages.flatMap (leafEntries file.readPage)).mapM entryOf = .ok es := by
  unfold entries at h
  rcases hall : harvestAll file (table.longValues.map (·.root)) with ⟨leaves, answer⟩
  rw [hall] at h
  dsimp only at h
  split at h
  · cases h
  · rename_i hsplit
    obtain ⟨_, rfl, rfl⟩ := Outcome.of_map_ok h
    obtain ⟨pages, hnodup, hpages, rfl⟩ := harvestAll_pages hall
    exact ⟨pages, hnodup, hpages, hsplit⟩

/-! Looking up -/

def lastUnder (key : Bytes) (es : List (Bytes × Bytes)) : Option Bytes :=
  ((es.filter (·.1 = key)).getLast?).map (·.2)

theorem lastUnder_eq_none_iff {key : Bytes} {es : List (Bytes × Bytes)} :
    lastUnder key es = none ↔ ∀ e ∈ es, e.1 ≠ key := by
  simp [lastUnder]

/-- Entries whose keys are shorter are not looked at. -/
theorem lastUnder_filter_length {key : Bytes} {n : Nat} (h : key.length = n)
    (es : List (Bytes × Bytes)) :
    lastUnder key (es.filter (·.1.length = n)) = lastUnder key es := by
  unfold lastUnder
  rw [List.filter_filter]
  congr 3
  funext e
  by_cases hkey : e.1 = key <;> simp [hkey, h]

/-- Of entries with one key the last stays. -/
theorem get?_foldl_add (es : List (Bytes × Bytes)) (lid : Lid) :
    (es.foldl add {}).get? lid = lastUnder lid.key es := by
  unfold get?
  induction es using List.reverseRecOn with
  | nil => exact Std.HashMap.getElem?_empty
  | append_singleton es e ih =>
    rw [List.foldl_append, List.foldl_cons, List.foldl_nil, add, insert,
      Std.HashMap.getElem?_insert, ih, lastUnder, lastUnder, List.filter_append]
    by_cases hkey : e.1 = lid.key <;> simp [hkey]

/-- The key of the first segment of a long value by its number: highest byte first, then the offset
zero. -/
def firstSegment (n : UInt32) : Bytes := (LittleEndian.encode 4 n.toNat).reverse ++ [0, 0, 0, 0]

/-- Where references lead among the entries. -/
structure Resolves (lv : LongValues) (es : List (Bytes × Bytes)) : Prop where
  last : ∀ reference : Bytes, 4 ≤ reference.length → ∃ lid, Lid.ofReference reference = .ok lid ∧
    lv.get? lid = lastUnder (referenceKey reference) es ∧
    (lv.get? lid = none ↔ ∀ e ∈ es, e.1 ≠ referenceKey reference)
  number : ∀ (n : UInt32) (rest : Bytes), ∃ lid,
    Lid.ofReference (LittleEndian.encode 4 n.toNat ++ rest) = .ok lid ∧
    lv.get? lid = lastUnder (firstSegment n) es
  same : ∀ (a b : Bytes) (lid lid' : Lid),
    Lid.ofReference a = .ok lid → Lid.ofReference b = .ok lid' →
    (lid.key = lid'.key ↔ a.take 4 = b.take 4)
  /-- Entries with shorter keys may as well not be there. -/
  whole : ∀ lid : Lid, lv.get? lid = lastUnder lid.key (es.filter (·.1.length = 8))
  short : ∀ reference : Bytes, reference.length < 4 →
    Lid.ofReference reference = .error (.truncated .longValueReference 0 4 reference.length)

theorem resolves_foldl_add (es : List (Bytes × Bytes)) : Resolves (es.foldl add {}) es where
  last reference h := by
    obtain ⟨lid, hlid, hkey⟩ := Lid.ofReference_ok h
    refine ⟨lid, hlid, ?_⟩
    rw [get?_foldl_add, hkey]
    exact ⟨rfl, lastUnder_eq_none_iff⟩
  number n rest := by
    have hlength : 4 ≤ (LittleEndian.encode 4 n.toNat ++ rest).length := by simp
    obtain ⟨lid, hlid, hkey⟩ := Lid.ofReference_ok hlength
    refine ⟨lid, hlid, ?_⟩
    rw [get?_foldl_add, hkey, referenceKey, List.take_left' (LittleEndian.length_encode 4 _),
      firstSegment]
  same a b lid lid' ha hb := by
    rw [Lid.key_of_ofReference ha, Lid.key_of_ofReference hb, referenceKey_inj]
  whole lid := by
    rw [get?_foldl_add, lastUnder_filter_length (by simp [Lid.key])]
  short reference h := Lid.ofReference_short h

/-- What is loaded for a table answers with the last entry of its trees that a reference leads to. A
tree that starts on a page of the trees before it changes nothing, but that the log tells of the
page once more. -/
theorem resolves_load {file : File} {trace : Trace.Switches} {table : Table}
    {log log' : Array Trace.Event} {lv : LongValues} (h : load file trace table log = .ok lv log') :
    ∃ es, entries file table = .ok es ∧ lv.Resolves es ∧
      (∃ pages : List PageId, pages.Nodup ∧
        (∀ id, id ∈ pages ↔ Reachable file.readPage (table.longValues.map (·.root)) id) ∧
        (pages.flatMap (leafEntries file.readPage)).mapM entryOf = .ok es) ∧
      ∀ (front back : List LongValueSlot) (slot : LongValueSlot), table.longValues = front ++ back →
        Reachable file.readPage (front.map (·.root)) slot.root →
        ∃ told more, log' = told ++ more ∧
          load file trace { table with longValues := front ++ slot :: back } log =
            .ok lv (told.push (.alreadyVisited slot.root) ++ more) := by
  obtain ⟨log'', hload⟩ := load_eq file trace table log
  rw [h] at hload
  split at hload
  · rename_i es hentries
    obtain ⟨rfl, -⟩ := EStateM.Result.ok.inj hload
    refine ⟨es, hentries, resolves_foldl_add es, pages_of_entries hentries, ?_⟩
    exact fun front back slot hslots hroot => load_insert hslots hroot h
  · cases hload

theorem mapM_entryOf {external : Bytes} {written : List Build.KeyedEntry} {ls : List Leaf}
    (h : List.Forall₂ (Build.Gives external) written ls) :
    ls.mapM entryOf = .ok (written.map fun e => (e.keyFrom external, e.payload)) := by
  induction h with
  | nil => rfl
  | cons hfirst _ ih =>
    obtain ⟨key, hsplit, hkey⟩ := hfirst
    rw [List.mapM_cons, entryOf, hsplit, ih, List.map_cons, ← hkey]
    rfl

/-- The entries of a page on its own are those that were written to it. -/
theorem entries_of_readsKeys {file : File} {id : UInt32} {external : Bytes}
    {written : List Build.KeyedEntry} (h : Build.ReadsKeys file id external written) {table : Table}
    (hroots : table.longValues.map (·.root) = [⟨id⟩]) :
    entries file table = .ok (written.map fun e => (e.keyFrom external, e.payload)) := by
  obtain ⟨ls, hharvest, hgives⟩ := h.whole
  unfold entries
  rw [hroots, harvestAll_singleton, hharvest]
  dsimp only
  rw [mapM_entryOf hgives]
  rfl

/-- The entry of a whole long value, its first segment, and an entry that replaces the segment. -/
def replaced : List Build.KeyedEntry :=
  [.plain [0, 0, 0, 1] [9], .common 4 [0, 0, 0, 0] [0x61], .plain [0, 0, 0, 1, 0, 0, 0, 0] [0x62]]

def replacedFile : File :=
  (Build.File.ofPages ⟨0x620, 0x11, 8192⟩ [(12, Build.keyedPage [0, 0, 0, 1] replaced)]).opened

def replacedTable : Table where
  name := "Notes"
  objectId := 11
  root := ⟨9⟩
  longValues := [⟨"LVNotes", ⟨12⟩⟩]

def replacedEntries : List (Bytes × Bytes) :=
  [([0, 0, 0, 1], [9]), ([0, 0, 0, 1, 0, 0, 0, 0], [0x61]), ([0, 0, 0, 1, 0, 0, 0, 0], [0x62])]

theorem entries_replaced : entries replacedFile replacedTable = .ok replacedEntries := by
  have hreads : Build.ReadsKeys replacedFile 12 (Build.keptKey ⟨0x620, 0x11, 8192⟩ [0, 0, 0, 1])
      replaced :=
    Build.readsKeys_opened (by decide) (by decide) rfl (by decide)
  exact entries_of_readsKeys hreads rfl

/-- The later of two entries is found, and a second tree at the same page changes nothing. -/
theorem resolves_replaced :
    ∃ lv log, load replacedFile {} replacedTable #[] = .ok lv log ∧ lv.Resolves replacedEntries ∧
      (∃ lid, Lid.ofReference [1, 0, 0, 0] = .ok lid ∧ lv.get? lid = some [0x62]) ∧
      ∃ told more, log = told ++ more ∧ load replacedFile {}
          { replacedTable with longValues := [⟨"LVNotes", ⟨12⟩⟩, ⟨"LVMore", ⟨12⟩⟩] } #[] =
        .ok lv (told.push (.alreadyVisited ⟨12⟩) ++ more) := by
  obtain ⟨log, hload⟩ := load_eq replacedFile {} replacedTable #[]
  rw [entries_replaced] at hload
  obtain ⟨es, hentries, hresolves, -, hinsert⟩ := resolves_load hload
  obtain rfl := Except.ok.inj (entries_replaced.symm.trans hentries)
  refine ⟨_, log, hload, hresolves, hresolves.number 1 [], ?_⟩
  exact hinsert [⟨"LVNotes", ⟨12⟩⟩] [] ⟨"LVMore", ⟨12⟩⟩ rfl (.root List.mem_cons_self rfl)

end LongValues

end Ese
