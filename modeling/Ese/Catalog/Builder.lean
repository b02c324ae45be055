import Ese.Catalog.Entry
import Ese.Tree.Walk
/-!
The catalog of a file: the entries of the catalog tree, folded into tables. A table entry opens a
table and the entries after it belong to that one, up to the next table entry. A table listed again
starts afresh at its old place.
-/

namespace Ese.Catalog

/-- The tables so far, their names all different, and the one that is open. -/
structure Builder where
  tables : List Table := []
  current : Option String := none
  deriving DecidableEq, Repr

namespace Builder

/-- Puts a table in the place of its namesake, or at the end. -/
def place (t : Table) : List Table → List Table
  | [] => [t]
  | u :: rest => if u.name = t.name then t :: rest else u :: place t rest

def openTable (b : Builder) (t : Table) : Builder := ⟨place t b.tables, some t.name⟩

/-- Changes the open table. -/
def updateCurrent (b : Builder) (kind : MemberKind) (name : String) (f : Table → Table) :
    Except DecodeError Builder :=
  match b.current with
  | some current =>
    .ok { b with tables := b.tables.map fun t => if t.name = current then f t else t }
  | none => .error (.schema (.beforeAnyTable kind name))

def push (b : Builder) : Entry → Except DecodeError Builder
  | .table name objectId root => .ok (b.openTable { name, objectId, root })
  | .column _ c => b.updateCurrent .column c.name (·.addColumn c)
  | .index _ i => b.updateCurrent .index i.name (·.addIndex i)
  | .longValue _ s => b.updateCurrent .longValue s.name (·.addLongValue s)
  | .callback _ => .ok b

def remarks (b : Builder) : Entry → List Trace.Event
  | .table name _ _ => if b.tables.any (·.name = name) then [.tableListedTwice name] else []
  | .callback name => [.callbackSkipped name]
  | _ => []

def finish (b : Builder) : Catalog := ⟨b.tables⟩

end Builder

/-- One leaf entry of the catalog tree. Pages that hold no records are passed over. -/
def onLeaf (trace : Trace.Switches) (leaf : Tree.Leaf) : Run Builder Unit := do
  if leaf.page.header.holdsRecords then
    let (_, payload) ← leaf.split
    let entry ← Entry.decode payload
    Run.logIf trace.catalog (.catalogRecord leaf.page.id leaf.value.index entry)
    let builder := (← get).state
    (builder.remarks entry).forM Run.log
    let builder ← builder.push entry
    modify fun j => { j with state := builder }

/-- The catalog of a file. A record that makes no sense fails it all. -/
def load (file : File) (trace : Trace.Switches) : Logged Catalog := fun log =>
  let visitor := Tree.Visitor.ofFile file trace (onLeaf trace)
  match visitor.survey [PageId.catalog] { log, state := {} } with
  | .ok pages j =>
    let catalog := j.state.finish
    .ok catalog (j.log.push (.catalogLoaded catalog.tables.length pages))
  | .error e j => .error e j.log

end Ese.Catalog
