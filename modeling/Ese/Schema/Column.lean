import Ese.PageId
import Ese.Schema.ColumnType
/-!
Column definitions. The id of a column decides where a record stores it, and the columns of a table
are kept in the order of their ids.
-/

namespace Ese

inductive Storage where
  | fixedSize
  | variableSize
  | tagged
  deriving DecidableEq, Repr

def Storage.name : Storage → String
  | fixedSize => "fixed"
  | variableSize => "variable"
  | tagged => "tagged"

structure Column where
  id : UInt32
  name : String
  type : ColumnType
  /-- The declared width; zero leaves it to the type. -/
  width : UInt32
  flags : UInt32
  codePage : UInt32
  deriving DecidableEq, Repr

namespace Column

def lastFixed : UInt32 := 127

def lastVariable : UInt32 := 255

def storage (c : Column) : Storage :=
  if c.id ≤ lastFixed then .fixedSize
  else if c.id ≤ lastVariable then .variableSize
  else .tagged

/-- The bytes a fixed column takes up in a record. -/
def fixedWidth (c : Column) : Option Nat :=
  if c.width = 0 then c.type.fixedSize else some c.width.toNat

end Column

/-- Columns with different ids, in the order of the ids. -/
structure Columns where
  toList : List Column
  sorted : toList.Pairwise fun a b => a.id < b.id
  deriving DecidableEq, Repr

namespace Columns

def empty : Columns := ⟨[], .nil⟩

instance : Inhabited Columns := ⟨empty⟩

/-- Puts a column at its place; one of the same id gives way. -/
def insertInto (c : Column) : List Column → List Column
  | [] => [c]
  | d :: rest =>
    if c.id < d.id then c :: d :: rest
    else if c.id = d.id then c :: rest
    else d :: insertInto c rest

theorem mem_insertInto {c x : Column} {l : List Column} (h : x ∈ insertInto c l) :
    x = c ∨ x ∈ l := by
  induction l with
  | nil => simpa [insertInto] using h
  | cons d rest ih =>
    unfold insertInto at h
    split at h
    · simpa using h
    · split at h
      · rcases List.mem_cons.1 h with h | h
        · exact .inl h
        · exact .inr (List.mem_cons_of_mem _ h)
      · rcases List.mem_cons.1 h with h | h
        · exact .inr (h ▸ List.mem_cons_self)
        · exact (ih h).imp_right (List.mem_cons_of_mem _)

theorem sorted_insertInto (c : Column) {l : List Column}
    (h : l.Pairwise fun a b => a.id < b.id) :
    (insertInto c l).Pairwise fun a b => a.id < b.id := by
  induction l with
  | nil => simp [insertInto]
  | cons d rest ih =>
    obtain ⟨hd, hrest⟩ := List.pairwise_cons.1 h
    unfold insertInto
    split
    · rename_i hlt
      refine List.pairwise_cons.2 ⟨fun x hx => ?_, h⟩
      rcases List.mem_cons.1 hx with rfl | hx
      · exact hlt
      · exact UInt32.lt_trans hlt (hd x hx)
    · split
      · rename_i heq
        exact List.pairwise_cons.2 ⟨fun x hx => heq ▸ hd x hx, hrest⟩
      · rename_i hnlt hne
        refine List.pairwise_cons.2 ⟨fun x hx => ?_, ih hrest⟩
        rcases mem_insertInto hx with rfl | hx
        · exact UInt32.lt_of_le_of_ne (UInt32.not_lt.1 hnlt) (Ne.symm hne)
        · exact hd x hx

def insert (cs : Columns) (c : Column) : Columns :=
  ⟨insertInto c cs.toList, sorted_insertInto c cs.sorted⟩

def size (cs : Columns) : Nat := cs.toList.length

def byId? (cs : Columns) (id : UInt32) : Option Column := cs.toList.find? fun c => c.id = id

/-- The first column of that name. -/
def byName? (cs : Columns) (name : String) : Option Column := cs.toList.find? fun c => c.name = name

/-- The fixed columns; no column of a record has the id zero. -/
def fixed (cs : Columns) : List Column :=
  cs.toList.filter fun c => 1 ≤ c.id && c.id ≤ Column.lastFixed

end Columns

end Ese
