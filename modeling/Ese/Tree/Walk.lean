import Std.Data.HashSet
import Ese.File.Basic
import Ese.Page.Key
import Ese.Run
import Ese.Trace.Switches
/-!
Walks over page trees, depth first and in page order. A chain of pages is followed along its `next`
links; on each page the leaf entries go to a callback and the branch entries are descended into. A
walker never reads a page twice, so a walk also ends on pages that point at one another in a circle.
-/

namespace Ese.Tree

/-- A leaf entry as the callback gets it. -/
structure Leaf where
  page : Page
  /-- Tag 0 of the page. -/
  external : Bytes
  value : TaggedValue

def Leaf.key (l : Leaf) : Except DecodeError Key := Key.parse l.value l.external

def Leaf.split (l : Leaf) : Except DecodeError (Key × Bytes) := do
  let key ← l.key
  return (key, key.payload l.value)

structure Walker (σ : Type) where
  visited : Std.HashSet PageId
  journal : Journal σ

abbrev Walk (σ : Type) := EStateM Error (Walker σ)

variable {σ α : Type}

/-- A run works on the journal and cannot touch the visited pages. -/
def Walk.ofRun (r : Run σ α) : Walk σ α := fun w =>
  match r w.journal with
  | .ok a j => .ok a { w with journal := j }
  | .error e j => .error e { w with journal := j }

/-- Marks a page as visited; false if it was. -/
def Walk.enter (id : PageId) : Walk σ Bool := fun w =>
  if w.visited.contains id then .ok false w
  else .ok true { w with visited := w.visited.insert id }

/-- The deepest nesting of branches a tree may have. -/
def maxDepth : Nat := 64

/-- No chain is longer than there are page numbers. -/
def maxChain : Nat := 0x100000000

def visiting (depth : Nat) (id : PageId) (header : Page.Header) : Trace.Event :=
  .visitingPage id depth header.tagCount header.flags header.next

/-- What a walk needs to know: how pages are read, whether they are logged, and who gets the leaf
entries. -/
structure Visitor (σ : Type) where
  readPage : PageId → Run σ Page
  logPages : Bool
  onLeaf : Leaf → Run σ Unit

namespace Visitor

def ofFile (file : File) (trace : Trace.Switches) (onLeaf : Leaf → Run σ Unit) : Visitor σ where
  readPage id := liftM (file.readPage id)
  logPages := trace.pages
  onLeaf := onLeaf

variable (v : Visitor σ)

/-- One entry: a leaf goes to the callback, a branch to `descend`. -/
def walkEntry (descend : PageId → Walk σ Unit) (page : Page) (external : TaggedValue)
    (value : TaggedValue) : Walk σ Unit :=
  if page.header.isLeaf then
    Walk.ofRun (v.onLeaf { page, external := external.data, value })
  else do
    let entry ← BranchEntry.parse value
    descend entry.child

/-- The tagged values of one page. The answer is the page to go on with; without a tag there is
none. -/
def walkValues (descend : PageId → Walk σ Unit) (page : Page) :
    List TaggedValue → Walk σ (Option PageId)
  | [] => pure none
  | external :: entries => do
    entries.forM (v.walkEntry descend page external)
    return some page.header.next

def walkPage (descend : PageId → Walk σ Unit) (depth : Nat) (id : PageId) :
    Walk σ (Option PageId) := do
  let page ← Walk.ofRun (v.readPage id)
  Walk.ofRun (Run.logIf v.logPages (visiting depth id page.header))
  let values ← page.values
  v.walkValues descend page values

/-- Pages along their `next` links, up to "no page", a page without tags or a page seen before. -/
def walkChain (descend : PageId → Walk σ Unit) (depth : Nat) : (steps : Nat) → PageId → Walk σ Unit
  | 0, id => throw (.decode (.fault (.endlessChain id)))
  | steps + 1, id =>
    if id.isValid then do
      if ← Walk.enter id then
        match ← v.walkPage descend depth id with
        | some next => walkChain descend depth steps next
        | none => pure ()
      else Walk.ofRun (Run.log (.alreadyVisited id))
    else pure ()

def walkFrom : (room : Nat) → PageId → Walk σ Unit
  | 0, start => throw (.decode (.format (.treeTooDeep start maxDepth)))
  | room + 1, start => v.walkChain (walkFrom room) (maxDepth - room) maxChain start

/-- The tree at a root page. The first error of the callback ends the walk and is its answer. -/
def walk (root : PageId) : Walk σ Unit := v.walkFrom (maxDepth + 1) root

def walkAll (roots : List PageId) : Walk σ Unit := roots.forM v.walk

/-- Walks trees with a fresh walker, which they share. The answer is the number of pages visited. -/
def survey (roots : List PageId) : Run σ Nat := fun journal =>
  match v.walkAll roots { visited := {}, journal } with
  | .ok () w => .ok w.visited.size w.journal
  | .error e w => .error e w.journal

end Visitor

end Ese.Tree
