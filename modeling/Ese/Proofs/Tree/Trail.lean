import Mathlib
import Ese.Tree.Walk
/-!
Trails: what a walk does, as a list of steps. Where a walk goes depends on the pages and on what was
visited before, never on the callback, so the steps can be listed without one. A walk is its trail
played to the callback, up to the first error of either.
-/

namespace Ese.Tree

abbrev Reader := PageId → Except DecodeError Page

inductive Step where
  /-- The page is marked as visited, and read next. -/
  | enter (id : PageId)
  | visit (id : PageId) (depth : Nat) (header : Page.Header)
  /-- The page is passed over, as it was visited before. -/
  | again (id : PageId)
  | leaf (l : Leaf)

def entered (steps : List Step) : List PageId :=
  steps.filterMap fun
    | .enter id => some id
    | _ => none

def leaves (steps : List Step) : List Leaf :=
  steps.filterMap fun
    | .leaf l => some l
    | _ => none

@[simp] theorem entered_nil : entered [] = [] := rfl

@[simp] theorem leaves_nil : leaves [] = [] := rfl

@[simp] theorem entered_append (a b : List Step) : entered (a ++ b) = entered a ++ entered b :=
  List.filterMap_append

@[simp] theorem leaves_append (a b : List Step) : leaves (a ++ b) = leaves a ++ leaves b :=
  List.filterMap_append

@[simp] theorem entered_enter (id : PageId) (steps : List Step) :
    entered (.enter id :: steps) = id :: entered steps := rfl

@[simp] theorem leaves_enter (id : PageId) (steps : List Step) :
    leaves (.enter id :: steps) = leaves steps := rfl

@[simp] theorem entered_visit (id : PageId) (depth : Nat) (header : Page.Header)
    (steps : List Step) : entered (.visit id depth header :: steps) = entered steps := rfl

@[simp] theorem leaves_visit (id : PageId) (depth : Nat) (header : Page.Header)
    (steps : List Step) : leaves (.visit id depth header :: steps) = leaves steps := rfl

@[simp] theorem entered_again (id : PageId) (steps : List Step) :
    entered (.again id :: steps) = entered steps := rfl

@[simp] theorem leaves_again (id : PageId) (steps : List Step) :
    leaves (.again id :: steps) = leaves steps := rfl

@[simp] theorem entered_leaf (l : Leaf) (steps : List Step) :
    entered (.leaf l :: steps) = entered steps := rfl

@[simp] theorem leaves_leaf (l : Leaf) (steps : List Step) :
    leaves (.leaf l :: steps) = l :: leaves steps := rfl

/-- A step is a leaf entry, or nothing that a callback hears of. -/
theorem Step.leaf_or_quiet (s : Step) : (∃ l, s = .leaf l) ∨ leaves [s] = [] := by
  cases s with
  | enter _ | visit _ _ _ | again _ => exact .inr rfl
  | leaf l => exact .inl ⟨l, rfl⟩

theorem leaves_cons_of_quiet {s : Step} (hs : leaves [s] = []) (steps : List Step) :
    leaves (s :: steps) = leaves steps := by
  rw [← List.singleton_append, leaves_append, hs, List.nil_append]

@[simp] theorem entered_map_leaf (ls : List Leaf) : entered (ls.map .leaf) = [] := by
  induction ls with
  | nil => rfl
  | cons l ls ih => simpa using ih

@[simp] theorem leaves_map_leaf (ls : List Leaf) : leaves (ls.map .leaf) = ls := by
  induction ls with
  | nil => rfl
  | cons l ls ih => simpa using ih

def marked (visited : Std.HashSet PageId) (steps : List Step) : Std.HashSet PageId :=
  visited.insertMany (entered steps)

@[simp] theorem mem_marked {visited : Std.HashSet PageId} {steps : List Step} {id : PageId} :
    id ∈ marked visited steps ↔ id ∈ visited ∨ id ∈ entered steps := by
  simp [marked]

@[simp] theorem marked_nil (visited : Std.HashSet PageId) : marked visited [] = visited := by
  simp [marked]

theorem marked_enter (visited : Std.HashSet PageId) (id : PageId) (steps : List Step) :
    marked visited (.enter id :: steps) = marked (visited.insert id) steps := by
  simp [marked, Std.HashSet.insertMany_cons]

theorem marked_visit (visited : Std.HashSet PageId) (id : PageId) (depth : Nat)
    (header : Page.Header) (steps : List Step) :
    marked visited (.visit id depth header :: steps) = marked visited steps := rfl

/-- A part of a walk by its trail: the steps from the pages visited so far, and the answer. -/
def Trail (α : Type) : Type := Std.HashSet PageId → List Step × Except Error α

theorem marked_append (visited : Std.HashSet PageId) (a b : List Step) :
    marked visited (a ++ b) = marked (marked visited a) b := by
  simp [marked, Std.HashSet.insertMany_append]

namespace Trail

variable {α β : Type}

/-- What follows a part that succeeds starts from the pages marked by it. -/
def andThen (t : Trail α) (f : α → Trail β) : Trail β := fun visited =>
  match t visited with
  | (steps, .ok a) =>
    let rest := f a (marked visited steps)
    (steps ++ rest.1, rest.2)
  | (steps, .error e) => (steps, .error e)

instance : Monad Trail where
  pure a := fun _ => ([], .ok a)
  bind := andThen

theorem bind_of_ok {t : Trail α} {f : α → Trail β} {visited : Std.HashSet PageId}
    {steps : List Step} {a : α} (h : t visited = (steps, .ok a)) :
    (t >>= f) visited =
      (steps ++ (f a (marked visited steps)).1, (f a (marked visited steps)).2) := by
  change andThen t f visited = _
  rw [andThen, h]

/-- A part that succeeds does so in all its parts. -/
theorem of_bind_ok {t : Trail α} {f : α → Trail β} {visited : Std.HashSet PageId}
    {steps : List Step} {b : β} (h : (t >>= f) visited = (steps, .ok b)) :
    ∃ first a rest, t visited = (first, .ok a) ∧ f a (marked visited first) = (rest, .ok b) ∧
      steps = first ++ rest := by
  change andThen t f visited = _ at h
  unfold andThen at h
  rcases ht : t visited with ⟨first, answer⟩
  rw [ht] at h
  cases answer with
  | error e => cases h
  | ok a =>
    obtain ⟨rfl, hb⟩ := Prod.mk.inj h
    exact ⟨first, a, _, rfl, Prod.ext rfl hb, rfl⟩

def say (s : Step) : Trail Unit := fun _ => ([s], .ok ())

def ofExcept (x : Except DecodeError α) : Trail α := fun _ => ([], x.mapError .decode)

theorem of_ofExcept_ok {x : Except DecodeError α} {visited : Std.HashSet PageId}
    {steps : List Step} {a : α} (h : ofExcept x visited = (steps, .ok a)) :
    x = .ok a ∧ steps = [] := by
  cases x with
  | error e => cases h
  | ok b =>
    cases h
    exact ⟨rfl, rfl⟩

def enter (id : PageId) : Trail Bool := fun visited =>
  if visited.contains id then ([], .ok false) else ([.enter id], .ok true)

/-! The parts of a walk, function by function -/

def entry (descend : PageId → Trail Unit) (page : Page) (external value : TaggedValue) :
    Trail Unit :=
  if page.header.isLeaf then say (.leaf { page, external := external.data, value })
  else do
    let entry ← ofExcept (BranchEntry.parse value)
    descend entry.child

def values (descend : PageId → Trail Unit) (page : Page) :
    List TaggedValue → Trail (Option PageId)
  | [] => pure none
  | external :: entries => do
    entries.forM (entry descend page external)
    return some page.header.next

def page (read : Reader) (descend : PageId → Trail Unit) (depth : Nat) (id : PageId) :
    Trail (Option PageId) := do
  let page ← ofExcept (read id)
  say (.visit id depth page.header)
  let vs ← ofExcept page.values
  values descend page vs

def chain (read : Reader) (descend : PageId → Trail Unit) (depth : Nat) :
    (steps : Nat) → PageId → Trail Unit
  | 0, id => ofExcept (.error (.fault (.endlessChain id)))
  | steps + 1, id =>
    if id.isValid then do
      if ← enter id then
        match ← page read descend depth id with
        | some next => chain read descend depth steps next
        | none => pure ()
      else say (.again id)
    else pure ()

/-- The steps at a page where there is nothing to be done. -/
def passed (id : PageId) : List Step := if id.isValid then [.again id] else []

@[simp] theorem entered_passed (id : PageId) : entered (passed id) = [] := by
  unfold passed
  split <;> rfl

@[simp] theorem leaves_passed (id : PageId) : leaves (passed id) = [] := by
  unfold passed
  split <;> rfl

@[simp] theorem marked_passed (visited : Std.HashSet PageId) (id : PageId) :
    marked visited (passed id) = visited := by
  simp [marked]

section

variable {read : Reader} {descend : PageId → Trail Unit} {depth steps : Nat} {id : PageId}
  {visited : Std.HashSet PageId}

theorem page_of_ok {p : Page} {vs : List TaggedValue} (hread : read id = .ok p)
    (hvalues : p.values = .ok vs) :
    page read descend depth id visited =
      (.visit id depth p.header :: (values descend p vs visited).1,
        (values descend p vs visited).2) := by
  have hp : ofExcept (read id) visited = ([], .ok p) := by rw [hread]; rfl
  have hsay : say (.visit id depth p.header) visited = ([.visit id depth p.header], .ok ()) := rfl
  have hvs : ofExcept p.values visited = ([], .ok vs) := by rw [hvalues]; rfl
  rw [page, bind_of_ok hp, marked_nil, bind_of_ok hsay, marked_visit, marked_nil, bind_of_ok hvs,
    marked_nil]
  rfl

theorem chain_skip (h : id.isValid → id ∈ visited) :
    chain read descend depth (steps + 1) id visited = (passed id, .ok ()) := by
  rw [chain, passed]
  split
  case isFalse => rfl
  case isTrue hv =>
    have henter : enter id visited = ([], .ok false) := by
      rw [enter, if_pos (by simpa using h hv)]
    rw [bind_of_ok henter]
    rfl

theorem chain_enter {onPage : List Step} {next : PageId} (hv : id.isValid) (hnew : id ∉ visited)
    (hpage : page read descend depth id (visited.insert id) = (onPage, .ok (some next))) :
    chain read descend depth (steps + 1) id visited =
      (.enter id :: (onPage ++
          (chain read descend depth steps next (marked (visited.insert id) onPage)).1),
        (chain read descend depth steps next (marked (visited.insert id) onPage)).2) := by
  have henter : enter id visited = ([.enter id], .ok true) := by
    rw [enter, if_neg (by simpa using hnew)]
  rw [chain, if_pos hv, bind_of_ok henter, marked_enter, marked_nil, if_pos rfl, bind_of_ok hpage]
  rfl

end

def tree (read : Reader) : (room : Nat) → PageId → Trail Unit
  | 0, start => ofExcept (.error (.format (.treeTooDeep start maxDepth)))
  | room + 1, start => chain read (tree read room) (maxDepth - room) maxChain start

end Trail

def trail (read : Reader) (root : PageId) : Trail Unit := Trail.tree read (maxDepth + 1) root

end Ese.Tree
