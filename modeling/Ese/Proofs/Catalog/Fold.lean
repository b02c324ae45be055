import Mathlib
import Ese.Proofs.Catalog.Load
import Ese.Proofs.Catalog.Stretch
import Ese.Proofs.Keyed
import Ese.Proofs.Tree.Harvest
/-!
The catalog as a fold. After any entries the builder has one table for each name, in the order of
first appearance, and a table is what its last stretch lists. A fold fails only at an entry that
needs a table before there is one.
-/

namespace Ese.Catalog

open Ese.Tree

variable {entries : List Entry} {b b' : Builder} {e : Entry}

/-! One entry -/

theorem Builder.push_open {name : String} (h : e.tableName? = none) (hcur : b.current = some name) :
    b.push e =
      .ok { b with tables := b.tables.map fun t => if t.name = name then e.change t else t } := by
  cases e with
  | table => cases h
  | callback => simp [push, Entry.change]
  | column | index | longValue =>
    rw [push, updateCurrent, hcur]
    rfl

/-- While no table is open, callbacks are accepted and members are not. -/
theorem Builder.push_closed (h : e.tableName? = none) (hcur : b.current = none) :
    b.push e = match e.member? with
      | some (kind, name) => .error (.schema (.beforeAnyTable kind name))
      | none => .ok b := by
  cases e with
  | table => cases h
  | callback => rfl
  | column | index | longValue =>
    rw [push, updateCurrent, hcur]
    rfl

theorem Builder.foldlM_open (h : b.current.isSome) (entries : List Entry) :
    ∃ b', entries.foldlM push b = .ok b' := by
  induction entries generalizing b with
  | nil => exact ⟨b, rfl⟩
  | cons e entries ih =>
    obtain ⟨name, hname⟩ := Option.isSome_iff_exists.mp h
    rw [List.foldlM_cons]
    cases htable : e.tableName? with
    | none =>
      rw [push_open htable hname]
      exact ih h
    | some opened =>
      cases e with
      | table name objectId root => exact ih rfl
      | _ => cases htable

/-! What the builder lists -/

theorem names_place (t : Table) (tables : List Table) :
    (Builder.place t tables).map (·.name) =
      if t.name ∈ tables.map (·.name) then tables.map (·.name)
      else tables.map (·.name) ++ [t.name] := by
  induction tables with
  | nil => rfl
  | cons u tables ih =>
    rw [Builder.place]
    by_cases h : u.name = t.name
    · simp [h]
    · have hne : t.name ≠ u.name := fun heq => h heq.symm
      rw [if_neg h, List.map_cons, ih, List.map_cons]
      simp only [List.mem_cons, hne, false_or]
      split <;> rfl

/-- A table takes the place of its namesake. -/
theorem mem_place {t u : Table} {tables : List Table} (hnodup : (tables.map (·.name)).Nodup)
    (h : u ∈ Builder.place t tables) : u = t ∨ u ∈ tables ∧ u.name ≠ t.name := by
  induction tables with
  | nil => exact .inl (List.mem_singleton.mp h)
  | cons v tables ih =>
    obtain ⟨hv, hnodup⟩ := List.nodup_cons.mp hnodup
    rw [Builder.place] at h
    by_cases hname : v.name = t.name
    · rw [if_pos hname] at h
      refine (List.mem_cons.mp h).imp_right fun hu => ⟨List.mem_cons_of_mem v hu, fun heq => ?_⟩
      exact hv (List.mem_map.mpr ⟨u, hu, heq.trans hname.symm⟩)
    · rw [if_neg hname] at h
      rcases List.mem_cons.mp h with rfl | hu
      · exact .inr ⟨List.mem_cons_self, hname⟩
      · exact (ih hnodup hu).imp_right fun h => ⟨List.mem_cons_of_mem v h.1, h.2⟩

theorem eraseDups_concat (names : List String) (name : String) : (names ++ [name]).eraseDups =
    if name ∈ names then names.eraseDups else names.eraseDups ++ [name] := by
  rw [List.eraseDups_append]
  by_cases h : name ∈ names <;> simp [List.removeAll, List.eraseDups_cons, h]

theorem listedNames_concat (entries : List Entry) (e : Entry) :
    listedNames (entries ++ [e]) = listedNames entries ++ e.tableName?.toList := by
  rw [listedNames_append]
  rfl

theorem listedNames_member (entries : List Entry) (he : e.tableName? = none) :
    listedNames (entries ++ [e]) = listedNames entries := by
  rw [listedNames_concat, he]
  exact List.append_nil _

/-- What a builder holds after these entries. -/
structure Builder.Lists (b : Builder) (entries : List Entry) : Prop where
  names : b.tables.map (·.name) = (listedNames entries).eraseDups
  nodup : (b.tables.map (·.name)).Nodup
  current : b.current = (listedNames entries).getLast?
  stretches : ∀ t ∈ b.tables, ∃ s : Stretch, s.LastIn entries ∧ s.table = t

namespace Builder.Lists

theorem openTable (h : b.Lists entries) (name : String) (objectId : UInt32) (root : PageId) :
    (b.openTable { name, objectId, root }).Lists (entries ++ [.table name objectId root]) := by
  have hnames := names_place { name, objectId, root } b.tables
  constructor
  · rw [listedNames_concat]
    change (place _ _).map _ = (listedNames entries ++ [name]).eraseDups
    rw [eraseDups_concat, hnames, h.names]
    simp only [List.mem_eraseDups]
  · change ((place _ _).map _).Nodup
    rw [hnames]
    split
    case isTrue => exact h.nodup
    case isFalse hnew => exact h.nodup.append (List.nodup_singleton name) (by simpa using hnew)
  · rw [listedNames_concat]
    exact List.getLast?_concat.symm
  · intro t ht
    rcases mem_place h.nodup ht with rfl | ⟨ht, hname⟩
    · exact ⟨_, Stretch.lastIn_open name objectId root entries, rfl⟩
    · obtain ⟨s, hs, rfl⟩ := h.stretches t ht
      rw [Stretch.name_table] at hname
      exact ⟨s, hs.append (fun heq => hname (Option.some.inj heq).symm) nofun, rfl⟩

/-- An entry that is not one of a table belongs to the table that was opened last. -/
theorem change (h : b.Lists entries) (he : e.tableName? = none) {name : String}
    (hcur : b.current = some name) :
    Lists { b with tables := b.tables.map fun t => if t.name = name then e.change t else t }
      (entries ++ [e]) := by
  have hlisted := listedNames_member entries he
  have hsame : (b.tables.map fun t => if t.name = name then e.change t else t).map (·.name) =
      b.tables.map (·.name) := by
    rw [List.map_map]
    refine List.map_congr_left fun t _ => ?_
    by_cases hname : t.name = name <;> simp [hname]
  have hlast : (listedNames entries).getLast? = some name := h.current.symm.trans hcur
  refine ⟨?_, ?_, ?_, fun t ht => ?_⟩
  · rw [hlisted, ← h.names, hsame]
  · rw [hsame]
    exact h.nodup
  · rw [hlisted]
    exact h.current
  · obtain ⟨u, hu, rfl⟩ := List.mem_map.mp ht
    obtain ⟨s, hs, rfl⟩ := h.stretches u hu
    by_cases hname : s.name = name
    · refine ⟨s.addMember e, hs.addMember he (hname ▸ hlast), ?_⟩
      rw [Stretch.table_addMember, Stretch.name_table, if_pos hname]
    · refine ⟨s, hs.append (by simp [he]) fun _ heq => ?_, ?_⟩
      · exact hname (Option.some.inj (heq.symm.trans hlast))
      · rw [Stretch.name_table, if_neg hname]

/-- An entry that is accepted before there is a table leaves none. -/
theorem idle (h : b.Lists entries) (he : e.tableName? = none) (hcur : b.current = none) :
    b.Lists (entries ++ [e]) := by
  have hlisted := listedNames_member entries he
  refine ⟨hlisted ▸ h.names, h.nodup, hlisted ▸ h.current, fun t ht => ?_⟩
  obtain ⟨s, hs, rfl⟩ := h.stretches t ht
  refine ⟨s, hs.append (by simp [he]) fun _ heq => ?_, rfl⟩
  rw [← h.current, hcur] at heq
  cases heq

theorem push (h : b.Lists entries) (hpush : b.push e = .ok b') : b'.Lists (entries ++ [e]) := by
  cases he : e.tableName? with
  | some opened =>
    cases e with
    | table name objectId root =>
      cases hpush
      exact h.openTable name objectId root
    | _ => cases he
  | none =>
    cases hcur : b.current with
    | some name =>
      rw [push_open he hcur] at hpush
      cases hpush
      exact h.change he hcur
    | none =>
      rw [push_closed he hcur] at hpush
      cases hmember : e.member? with
      | some member =>
        rw [hmember] at hpush
        cases hpush
      | none =>
        rw [hmember] at hpush
        cases hpush
        exact h.idle he hcur

theorem foldlM (h : entries.foldlM Builder.push {} = .ok b) : b.Lists entries := by
  induction entries using List.reverseRecOn generalizing b with
  | nil =>
    cases h
    exact ⟨rfl, .nil, rfl, nofun⟩
  | append_singleton entries e ih =>
    rw [List.foldlM_append] at h
    obtain ⟨b₁, hfirst, hlast⟩ := Outcome.of_bind_ok h
    rw [List.foldlM_cons] at hlast
    obtain ⟨b₂, hpush, hdone⟩ := Outcome.of_bind_ok hlast
    cases hdone
    exact (ih hfirst).push hpush

theorem table?_eq (h : b.Lists entries) {t : Table} (ht : t ∈ b.tables) :
    b.finish.table? t.name = some t :=
  Keyed.find?_eq h.nodup ht

end Builder.Lists

/-! Entries before any table -/

/-- The entry needs a table, and those before it neither open nor need one. -/
structure Stray (before : List Entry) (e : Entry) (kind : MemberKind) (name : String) : Prop where
  idle : ∀ x ∈ before, x.tableName? = none ∧ x.member? = none
  member : e.member? = some (kind, name)

theorem foldlM_idle (h : ∀ x ∈ entries, x.tableName? = none ∧ x.member? = none) (b : Builder) :
    entries.foldlM Builder.push b = .ok b := by
  induction entries with
  | nil => rfl
  | cons e entries ih =>
    obtain ⟨htable, hmember⟩ := h e List.mem_cons_self
    have hpush : b.push e = .ok b := by
      cases e with
      | callback => rfl
      | table => cases htable
      | column | index | longValue => cases hmember
    rw [List.foldlM_cons, hpush]
    exact ih fun x hx => h x (List.mem_cons_of_mem e hx)

/-- The first entry that needs a table while there is none is what a fold fails at. -/
theorem foldlM_push_error_iff {reason : DecodeError} :
    entries.foldlM Builder.push {} = .error reason ↔ ∃ before e after kind name,
      entries = before ++ e :: after ∧ Stray before e kind name ∧
        reason = .schema (.beforeAnyTable kind name) := by
  constructor
  · intro h
    induction entries with
    | nil => cases h
    | cons e entries ih =>
      rw [List.foldlM_cons] at h
      cases htable : e.tableName? with
      | some opened =>
        cases e with
        | table name objectId root =>
          obtain ⟨b', hb'⟩ :=
            Builder.foldlM_open (b := Builder.openTable {} { name, objectId, root })
            rfl entries
          exact nomatch h.symm.trans hb'
        | _ => cases htable
      | none =>
        rw [Builder.push_closed htable rfl] at h
        cases hmember : e.member? with
        | some member =>
          rw [hmember] at h
          cases h
          exact ⟨[], e, entries, member.1, member.2, rfl, ⟨nofun, hmember⟩, rfl⟩
        | none =>
          rw [hmember] at h
          obtain ⟨before, x, after, kind, name, rfl, hstray, hreason⟩ := ih h
          refine ⟨e :: before, x, after, kind, name, rfl, ⟨?_, hstray.member⟩, hreason⟩
          intro y hy
          rcases List.mem_cons.mp hy with rfl | hy
          · exact ⟨htable, hmember⟩
          · exact hstray.idle y hy
  · rintro ⟨before, e, after, kind, name, rfl, hstray, rfl⟩
    have htable : e.tableName? = none := by
      cases e with
      | table => exact nomatch hstray.member
      | _ => rfl
    rw [List.foldlM_append, foldlM_idle hstray.idle]
    change (after.foldlM Builder.push =<< Builder.push {} e) = _
    rw [Builder.push_closed htable rfl, hstray.member]
    rfl

/-- Callbacks change nothing, wherever they are. -/
theorem foldlM_members (entries : List Entry) (b : Builder) :
    (entries.filter (!·.isCallback)).foldlM Builder.push b = entries.foldlM Builder.push b := by
  induction entries generalizing b with
  | nil => rfl
  | cons e entries ih =>
    by_cases h : e.isCallback
    · have hpush : b.push e = .ok b := by
        cases e with
        | callback => rfl
        | _ => cases h
      rw [List.filter_cons_of_neg (by simpa using h), ih, List.foldlM_cons, hpush]
      rfl
    · rw [List.filter_cons_of_pos (by simpa using h), List.foldlM_cons, List.foldlM_cons]
      cases b.push e with
      | error reason => rfl
      | ok b' => exact ih b'

/-! The whole fold -/

/-- What the fold of these entries comes to. -/
structure Folds (entries : List Entry) (result : Except DecodeError Builder) : Prop where
  /-- It fails at the first member before any table, and only there. -/
  fails : ∀ reason, result = .error reason ↔ ∃ before e after kind name,
    entries = before ++ e :: after ∧ Stray before e kind name ∧
      before.foldlM Builder.push {} = .ok {} ∧ reason = .schema (.beforeAnyTable kind name)
  /-- One table for each name, in the order of first appearance. -/
  names : ∀ b, result = .ok b → b.finish.tableNames = (listedNames entries).eraseDups ∧
    b.finish.tableNames.Nodup
  listed : ∀ b, result = .ok b → ∀ name ∈ listedNames entries, ∃ (s : Stretch) (t : Table),
    s.name = name ∧ s.LastIn entries ∧ s.Describes t ∧ b.finish.table? name = some t
  unlisted : ∀ b, result = .ok b → ∀ name ∉ listedNames entries, b.finish.table? name = none
  found : ∀ b, result = .ok b → ∀ t ∈ b.finish.tables, b.finish.table? t.name = some t
  callbacks : (entries.filter (!·.isCallback)).foldlM Builder.push {} = result

theorem folds (entries : List Entry) : Folds entries (entries.foldlM Builder.push {}) where
  fails reason := by
    rw [foldlM_push_error_iff]
    constructor
    · rintro ⟨before, e, after, kind, name, hentries, hstray, hreason⟩
      exact ⟨before, e, after, kind, name, hentries, hstray, foldlM_idle hstray.idle {}, hreason⟩
    · rintro ⟨before, e, after, kind, name, hentries, hstray, -, hreason⟩
      exact ⟨before, e, after, kind, name, hentries, hstray, hreason⟩
  names b hb := ⟨(Builder.Lists.foldlM hb).names, (Builder.Lists.foldlM hb).nodup⟩
  listed b hb name hname := by
    have h := Builder.Lists.foldlM hb
    rw [← List.mem_eraseDups, ← h.names] at hname
    obtain ⟨t, ht, rfl⟩ := List.mem_map.mp hname
    obtain ⟨s, hs, rfl⟩ := h.stretches t ht
    exact ⟨s, s.table, s.name_table.symm, hs, s.describes_table, h.table?_eq ht⟩
  unlisted b hb name hname := by
    have h := Builder.Lists.foldlM hb
    rw [← List.mem_eraseDups, ← h.names] at hname
    refine List.find?_eq_none.mpr fun t ht => ?_
    simpa using fun heq => hname (List.mem_map.mpr ⟨t, ht, heq⟩)
  found b hb t ht := (Builder.Lists.foldlM hb).table?_eq ht
  callbacks := foldlM_members entries {}

/-! Loading -/

/-- The leaf entries that a walk of the catalog tree hands over on pages with records. -/
def recordLeaves (file : File) : List Leaf :=
  (harvest file PageId.catalog).1.filter (·.page.header.holdsRecords)

/-- A catalog is loaded as the fold over the leaf entries, and the first that does not decode or has
no place fails it. What is wrong with the walk itself comes after the entries it handed over. -/
structure Loads (file : File) (load : Logged Catalog) : Prop where
  decoded : ∀ entries, (recordLeaves file).mapM entryOf = .ok entries →
    (recordLeaves file).foldlM extend {} = entries.foldlM Builder.push {}
  result : ∀ log, ∃ log', load log = match (recordLeaves file).foldlM extend {} with
    | .error reason => .error (.decode reason) log'
    | .ok b => match (harvest file PageId.catalog).2 with
      | .error reason => .error reason log'
      | .ok () => .ok b.finish log'

theorem loads (file : File) (trace : Trace.Switches) : Loads file (load file trace) where
  decoded _ h := foldlM_extend h {}
  result log := by
    obtain ⟨log', h⟩ := load_eq file trace log
    refine ⟨log', ?_⟩
    rw [h, sweep_eq_harvest, bind_apply, recordLeaves]
    have htake := forM_take_eq (harvest file PageId.catalog).1 {}
    cases hfold : ((harvest file PageId.catalog).1.filter
      (·.page.header.holdsRecords)).foldlM extend {} with
    | error reason =>
      rw [hfold] at htake
      obtain ⟨b', hb'⟩ := htake
      rw [hb']
    | ok b =>
      rw [hfold] at htake
      rw [htake]
      cases (harvest file PageId.catalog).2 <;> rfl

/-- The catalog of a file is the fold of its entries. -/
theorem catalog_folds : (∀ entries, Folds entries (entries.foldlM Builder.push {})) ∧
    ∀ file trace, Loads file (load file trace) :=
  ⟨folds, loads⟩

end Ese.Catalog
