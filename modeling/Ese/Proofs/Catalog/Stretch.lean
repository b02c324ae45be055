import Mathlib
import Ese.Catalog.Builder
import Ese.Proofs.Schema.Columns
/-!
Stretches of a catalog: a table entry and the entries behind it, up to the next table entry. A table
may be listed several times, and its last stretch alone says what it is.
-/

namespace Ese.Catalog

namespace Entry

def tableName? : Entry → Option String
  | table name _ _ => some name
  | column .. | index .. | longValue .. | callback _ => none

def member? : Entry → Option (MemberKind × String)
  | column _ c => some (.column, c.name)
  | index _ i => some (.index, i.name)
  | longValue _ s => some (.longValue, s.name)
  | table .. | callback _ => none

def column? : Entry → Option Column
  | column _ c => some c
  | _ => none

def index? : Entry → Option Index
  | index _ i => some i
  | _ => none

def longValue? : Entry → Option LongValueSlot
  | longValue _ s => some s
  | _ => none

def isCallback : Entry → Bool
  | callback _ => true
  | _ => false

/-- What an entry makes of the open table. -/
def change : Entry → Table → Table
  | column _ c, t => t.addColumn c
  | index _ i, t => t.addIndex i
  | longValue _ s, t => t.addLongValue s
  | table _ _ _, t | callback _, t => t

@[simp] theorem name_change (e : Entry) (t : Table) : (e.change t).name = t.name := by
  cases e <;> rfl

end Entry

/-- The names of the tables, as often as they are listed. -/
def listedNames (entries : List Entry) : List String := entries.filterMap Entry.tableName?

theorem listedNames_append (a b : List Entry) :
    listedNames (a ++ b) = listedNames a ++ listedNames b :=
  List.filterMap_append

theorem listedNames_eq_nil {entries : List Entry} (h : ∀ e ∈ entries, e.tableName? = none) :
    listedNames entries = [] :=
  List.filterMap_eq_nil_iff.mpr h

/-- A table entry and the entries behind it. -/
structure Stretch where
  name : String
  objectId : UInt32
  root : PageId
  members : List Entry

namespace Stretch

def entries (s : Stretch) : List Entry := .table s.name s.objectId s.root :: s.members

def columns (s : Stretch) : List Column := s.members.filterMap Entry.column?

/-- The stretch runs from the last entry that opens its table to the next that opens any. -/
structure LastIn (s : Stretch) (entries : List Entry) : Prop where
  ends : ∀ e ∈ s.members, e.tableName? = none
  split : ∃ before after, entries = before ++ s.entries ++ after ∧
    (∀ e ∈ after.head?, e.tableName?.isSome) ∧ s.name ∉ listedNames after

structure Describes (s : Stretch) (t : Table) : Prop where
  name : t.name = s.name
  objectId : t.objectId = s.objectId
  root : t.root = s.root
  /-- Of the columns with one id, the last is kept. -/
  columns : ∀ c, c ∈ t.columns.toList ↔ s.columns.reverse.find? (·.id = c.id) = some c
  columnOrder : t.columns.toList.Pairwise fun a b => a.id < b.id
  indexes : t.indexes = s.members.filterMap Entry.index?
  longValues : t.longValues = s.members.filterMap Entry.longValue?

/-- The table of a stretch: its entries change it one after the other. -/
def table (s : Stretch) : Table :=
  s.members.foldl (fun t e => e.change t) { name := s.name, objectId := s.objectId, root := s.root }

def addMember (s : Stretch) (e : Entry) : Stretch := { s with members := s.members ++ [e] }

theorem table_addMember (s : Stretch) (e : Entry) : (s.addMember e).table = e.change s.table := by
  unfold table addMember
  rw [List.foldl_append]
  rfl

/-- What entries behind a table entry make of its table. -/
theorem foldl_change (members : List Entry) (t : Table) :
    members.foldl (fun t e => e.change t) t = { t with
      columns := (members.filterMap Entry.column?).foldl Columns.insert t.columns
      indexes := t.indexes ++ members.filterMap Entry.index?
      longValues := t.longValues ++ members.filterMap Entry.longValue? } := by
  induction members generalizing t with
  | nil => simp
  | cons e members ih =>
    rw [List.foldl_cons, ih]
    cases e <;>
      simp [List.filterMap_cons, Entry.change, Entry.column?, Entry.index?, Entry.longValue?,
        Table.addColumn, Table.addIndex, Table.addLongValue]

@[simp] theorem name_table (s : Stretch) : s.table.name = s.name := by
  rw [table, foldl_change]

theorem describes_table (s : Stretch) : s.Describes s.table := by
  rw [table, foldl_change]
  refine ⟨rfl, rfl, rfl, fun c => ?_, Columns.sorted _, by simp, by simp⟩
  have hfound := Columns.byId?_foldl_insert s.columns .empty c.id
  rw [show Columns.empty.byId? c.id = none from rfl, Option.or_none] at hfound
  have hmem : (s.columns.foldl Columns.insert .empty).byId? c.id = some c ↔
      c ∈ (s.columns.foldl Columns.insert .empty).toList ∧ c.id = c.id := Columns.byId?_eq_some_iff
  rw [hfound] at hmem
  exact ⟨fun hc => hmem.mpr ⟨hc, rfl⟩, fun h => (hmem.mp h).1⟩

end Stretch

/-! One entry more -/

namespace Stretch

variable {s : Stretch} {entries : List Entry} {e : Entry}

theorem listedNames_entries (h : ∀ e ∈ s.members, e.tableName? = none) :
    listedNames s.entries = [s.name] := by
  change s.name :: listedNames s.members = _
  rw [listedNames_eq_nil h]

/-- The last table that was opened is the one whose stretch is still open. -/
theorem getLast?_eq_iff {before after : List Entry} (hends : ∀ e ∈ s.members, e.tableName? = none)
    (hafter : ∀ e ∈ after.head?, e.tableName?.isSome) (hlast : s.name ∉ listedNames after) :
    (listedNames (before ++ s.entries ++ after)).getLast? = some s.name ↔ after = [] := by
  rw [listedNames_append, listedNames_append, listedNames_entries hends, List.getLast?_append,
    List.getLast?_concat]
  cases after with
  | nil => simp [listedNames]
  | cons e after =>
    obtain ⟨name, hname⟩ := Option.isSome_iff_exists.mp (hafter e rfl)
    have hcons : listedNames (e :: after) = name :: listedNames after :=
      List.filterMap_cons_some hname
    rw [hcons] at hlast ⊢
    obtain ⟨last, hl⟩ := Option.isSome_iff_exists.mp
      (List.getLast?_isSome.mpr (List.cons_ne_nil name (listedNames after)))
    have hne : last ≠ s.name := fun h => hlast (h ▸ List.mem_of_getLast? hl)
    simp [hl, hne]

/-- A table entry opens the last stretch of its table. -/
theorem lastIn_open (name : String) (objectId : UInt32) (root : PageId) (entries : List Entry) :
    LastIn ⟨name, objectId, root, []⟩ (entries ++ [.table name objectId root]) where
  ends _ h := absurd h List.not_mem_nil
  split := ⟨entries, [], by simp [Stretch.entries], by simp, by simp [listedNames]⟩

theorem LastIn.addMember (h : s.LastIn entries) (he : e.tableName? = none)
    (hopen : (listedNames entries).getLast? = some s.name) :
    (s.addMember e).LastIn (entries ++ [e]) := by
  obtain ⟨before, after, rfl, hafter, hlast⟩ := h.split
  obtain rfl := (getLast?_eq_iff h.ends hafter hlast).mp hopen
  constructor
  · intro x hx
    rcases List.mem_append.mp hx with hx | hx
    · exact h.ends x hx
    · rw [List.mem_singleton.mp hx]
      exact he
  · exact ⟨before, [], by simp [Stretch.entries, Stretch.addMember], by simp, hlast⟩

/-- A stretch that is over is not changed by entries that do not open its table again. -/
theorem LastIn.append (h : s.LastIn entries) (he : e.tableName? ≠ some s.name)
    (hover : e.tableName? = none → (listedNames entries).getLast? ≠ some s.name) :
    s.LastIn (entries ++ [e]) := by
  obtain ⟨before, after, rfl, hafter, hlast⟩ := h.split
  refine ⟨h.ends, before, after ++ [e], List.append_assoc _ _ _, ?_, ?_⟩
  · cases after with
    | cons x after => exact hafter
    | nil =>
      rintro x ⟨⟩
      by_contra hx
      have hnone : e.tableName? = none := by simpa using hx
      exact hover hnone ((getLast?_eq_iff h.ends hafter hlast).mpr rfl)
  · rw [listedNames_append, List.mem_append, not_or]
    refine ⟨hlast, fun hmem => ?_⟩
    obtain ⟨x, hx, hname⟩ := List.mem_filterMap.mp hmem
    rw [List.mem_singleton.mp hx] at hname
    exact he hname

end Stretch

end Ese.Catalog
