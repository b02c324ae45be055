import Ese.Schema.Column
/-!
Table definitions: columns, indexes and long-value trees. `Catalog` holds the tables of a database
in the order in which they were first listed.
-/

namespace Ese

structure Index where
  name : String
  root : PageId
  locale : UInt32
  deriving DecidableEq, Repr

/-- A tree that holds the values too large for a record. -/
structure LongValueSlot where
  name : String
  root : PageId
  deriving DecidableEq, Repr

structure Table where
  name : String
  objectId : UInt32
  root : PageId
  columns : Columns := .empty
  indexes : List Index := []
  longValues : List LongValueSlot := []
  deriving DecidableEq, Repr

namespace Table

def addColumn (t : Table) (c : Column) : Table := { t with columns := t.columns.insert c }

def addIndex (t : Table) (i : Index) : Table := { t with indexes := t.indexes ++ [i] }

def addLongValue (t : Table) (s : LongValueSlot) : Table :=
  { t with longValues := t.longValues ++ [s] }

def longValueRoot (t : Table) : Option PageId := t.longValues.head?.map (·.root)

structure Summary where
  name : String
  root : PageId
  columns : Nat
  indexes : Nat
  longValues : Nat
  deriving DecidableEq, Repr

def summary (t : Table) : Summary :=
  ⟨t.name, t.root, t.columns.size, t.indexes.length, t.longValues.length⟩

end Table

structure Catalog where
  tables : List Table
  deriving DecidableEq, Repr

namespace Catalog

def table? (c : Catalog) (name : String) : Option Table := c.tables.find? fun t => t.name = name

def tableNames (c : Catalog) : List String := c.tables.map (·.name)

end Catalog

end Ese
