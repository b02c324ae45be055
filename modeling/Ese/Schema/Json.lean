import Ese.Json.Writer
import Ese.Schema.Table
/-!
Table definitions as JSON.
-/

namespace Ese

def PageId.toJson (p : PageId) : Json := .ofNat p.value.toNat

/-- A known type is its name; another one keeps its number. -/
def ColumnType.toJson : ColumnType → Json
  | .other code => .object [("Other", .ofNat code.toNat)]
  | type => .string type.name

def Column.toJson (c : Column) : Json :=
  .object [
    ("id", .ofNat c.id.toNat),
    ("name", .string c.name),
    ("columnType", c.type.toJson),
    ("spaceUsage", .ofNat c.width.toNat),
    ("flags", .ofNat c.flags.toNat),
    ("codepage", .ofNat c.codePage.toNat)]

def Index.toJson (i : Index) : Json :=
  .object [("name", .string i.name), ("root", i.root.toJson), ("locale", .ofNat i.locale.toNat)]

def LongValueSlot.toJson (s : LongValueSlot) : Json :=
  .object [("name", .string s.name), ("root", s.root.toJson)]

def Table.toJson (t : Table) : Json :=
  .object [
    ("name", .string t.name),
    ("objectId", .ofNat t.objectId.toNat),
    ("root", t.root.toJson),
    ("columns", .array (t.columns.toList.map Column.toJson)),
    ("indexes", .array (t.indexes.map Index.toJson)),
    ("longValues", .array (t.longValues.map LongValueSlot.toJson))]

def Table.Summary.toJson (s : Table.Summary) : Json :=
  .object [
    ("name", .string s.name),
    ("root", s.root.toJson),
    ("columns", .ofNat s.columns),
    ("indexes", .ofNat s.indexes),
    ("longValues", .ofNat s.longValues)]

end Ese
