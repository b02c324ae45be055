import Mathlib
import Ese.Proofs.Tree.Reachability
/-!
Harvests: the leaf entries that a walk hands over, also when it ends in an error. What a callback
makes of a walk is what it makes of the harvest, and no entry is in a harvest twice: a page is
entered at most once, and its entries are handed over together.
-/

namespace Ese.Tree

/-! What a walk hands over -/

def keepLeaf (l : Leaf) : Callback (List Leaf) Unit := modify (· ++ [l])

/-- The leaf entries that a walk with a fresh walker hands over, and how it ends. -/
def harvest (file : File) (root : PageId) : List Leaf × Except Error Unit :=
  match (Visitor.ofFile file {} fun l => Run.ofCallback (keepLeaf l)).walk root
    { visited := {}, journal := ⟨#[], []⟩ } with
  | .ok () w => (w.journal.state, .ok ())
  | .error e w => (w.journal.state, .error e)

theorem forM_keepLeaf (ls kept : List Leaf) : ls.forM keepLeaf kept = .ok () (kept ++ ls) := by
  induction ls generalizing kept with
  | nil => rw [List.append_nil]; rfl
  | cons l ls ih =>
    have hl : keepLeaf l kept = .ok () (kept ++ [l]) := rfl
    rw [forM_cons_apply, hl]
    simp only [ih, List.append_assoc, List.cons_append, List.nil_append]

def handedOver (a : Walk (List Leaf) Unit) : List Leaf × Except Error Unit :=
  match a { visited := {}, journal := ⟨#[], []⟩ } with
  | .ok () w => (w.journal.state, .ok ())
  | .error e w => (w.journal.state, .error e)

/-- Whatever walk it is, it hands over the leaf entries of its trail. -/
theorem handedOver_eq {file : File} {a : Walk (List Leaf) Unit} {t : Trail Unit}
    (h : Follows (Visitor.ofFile file {} fun l => Run.ofCallback (keepLeaf l)) a t) :
    handedOver a = (leaves (t {}).1, (t {}).2) := by
  have h := Follows.onState (Visitor.calls_ofCallback file {} keepLeaf) h
    { visited := {}, journal := ⟨#[], []⟩ }
  rw [bind_apply, forM_keepLeaf, List.nil_append] at h
  change Walk.onState _ = conclude (t {}).2 (leaves (t {}).1) at h
  unfold handedOver
  generalize t ∅ = reported at h ⊢
  obtain ⟨steps, answer⟩ := reported
  generalize a _ = walked at h ⊢
  cases walked with
  | ok u w =>
    cases answer with
    | ok u' => exact congrArg (·, Except.ok ()) (EStateM.Result.ok.inj h).2
    | error e => cases h
  | error e w =>
    cases answer with
    | ok u => cases h
    | error e' =>
      obtain ⟨rfl, hw⟩ := EStateM.Result.error.inj h
      exact congrArg (·, Except.error e) hw

theorem harvest_eq (file : File) (root : PageId) :
    harvest file root = (leaves (trail file.readPage root {}).1, (trail file.readPage root {}).2) :=
  handedOver_eq (Follows.walk (fun _ => rfl) root)

variable {σ α β : Type}

/-- A callback on a tree takes the harvest, and then the walk ends. -/
theorem sweep_eq_harvest (file : File) (root : PageId) (f : Leaf → Callback σ Unit) :
    sweep file.readPage root f =
      ((harvest file root).1.forM f >>= fun _ => conclude (harvest file root).2) := by
  rw [harvest_eq]
  rfl

/-! Page by page -/

/-- A property of stretches of a trail: each page has it, and so do stretches that are joined. -/
structure Pagewise (read : Reader) (P : Std.HashSet PageId → List Step → Prop) : Prop where
  nil : ∀ visited, P visited []
  append : ∀ {visited : Std.HashSet PageId} {a b : List Step}, P visited a →
    P (marked visited a) b → P visited (a ++ b)
  lost : ∀ {visited : Std.HashSet PageId} {id : PageId}, id ∉ visited →
    leafEntries read id = [] → P visited [.enter id]
  page : ∀ {visited : Std.HashSet PageId} {id : PageId} (depth : Nat) (header : Page.Header),
    id ∉ visited →
    P visited (.enter id :: .visit id depth header :: (leafEntries read id).map .leaf)
  again : ∀ {visited : Std.HashSet PageId} (id : PageId), P visited [.again id]

namespace Trail

theorem bind_of_error {t : Trail α} {f : α → Trail β} {visited : Std.HashSet PageId}
    {steps : List Step} {e : Error} (h : t visited = (steps, .error e)) :
    (t >>= f) visited = (steps, .error e) := by
  change andThen t f visited = _
  rw [andThen, h]

theorem page_of_error {read : Reader} {descend : PageId → Trail Unit} {depth : Nat} {id : PageId}
    {visited : Std.HashSet PageId} {e : DecodeError} (hread : read id = .error e) :
    page read descend depth id visited = ([], .error (.decode e)) := by
  have hp : ofExcept (read id) visited = ([], .error (.decode e)) := by rw [hread]; rfl
  rw [page, bind_of_error hp]

theorem values_of_error {read : Reader} {descend : PageId → Trail Unit} {depth : Nat} {id : PageId}
    {visited : Std.HashSet PageId} {p : Page} {e : DecodeError} (hread : read id = .ok p)
    (hvalues : p.values = .error e) :
    page read descend depth id visited = ([.visit id depth p.header], .error (.decode e)) := by
  have hp : ofExcept (read id) visited = ([], .ok p) := by rw [hread]; rfl
  have hsay : say (.visit id depth p.header) visited = ([.visit id depth p.header], .ok ()) := rfl
  have hvs : ofExcept p.values visited = ([], .error (.decode e)) := by rw [hvalues]; rfl
  rw [page, bind_of_ok hp, marked_nil, bind_of_ok hsay, marked_visit, marked_nil, bind_of_error hvs]
  rfl

/-- Nothing comes behind a page that is not done with. -/
theorem chain_of_error {read : Reader} {descend : PageId → Trail Unit} {depth steps : Nat}
    {id : PageId} {visited : Std.HashSet PageId} {onPage : List Step} {e : Error} (hv : id.isValid)
    (hnew : id ∉ visited)
    (hpage : page read descend depth id (visited.insert id) = (onPage, .error e)) :
    chain read descend depth (steps + 1) id visited = (.enter id :: onPage, .error e) := by
  have henter : enter id visited = ([.enter id], .ok true) := by
    rw [enter, if_neg (by simpa using hnew)]
  rw [chain, if_pos hv, bind_of_ok henter, marked_enter, marked_nil, if_pos rfl,
    bind_of_error hpage]
  rfl

def Has (P : Std.HashSet PageId → List Step → Prop) (t : Trail α) : Prop :=
  ∀ visited, P visited (t visited).1

end Trail

namespace Pagewise

open Trail

variable {read : Reader} {P : Std.HashSet PageId → List Step → Prop} (h : Pagewise read P)
  {descend : PageId → Trail Unit}

include h

theorem idle {t : Trail α} (ht : ∀ visited, (t visited).1 = []) : t.Has P := by
  intro visited
  rw [ht visited]
  exact h.nil visited

theorem bind {t : Trail α} {f : α → Trail β} (ht : t.Has P) (hf : ∀ a, (f a).Has P) :
    (t >>= f).Has P := by
  intro visited
  have hfirst := ht visited
  rcases hsteps : t visited with ⟨steps, answer⟩
  rw [hsteps] at hfirst
  cases answer with
  | error e =>
    rw [bind_of_error hsteps]
    exact hfirst
  | ok a =>
    rw [bind_of_ok hsteps]
    exact h.append hfirst (hf a _)

theorem forM {γ : Type} {f : γ → Trail Unit} (hf : ∀ x, (f x).Has P) (xs : List γ) :
    Has P (xs.forM f) := by
  induction xs with
  | nil => exact h.idle fun _ => rfl
  | cons x xs ih => exact h.bind (hf x) fun _ => ih

theorem values (hd : ∀ id, (descend id).Has P) {id : PageId} {page : Page} {vs : List TaggedValue}
    (hc : contents read id = .ok (page, vs)) (visited : Std.HashSet PageId) :
    ∃ down, (values descend page vs visited).1 = (leafEntries read id).map .leaf ++ down ∧
      P visited down := by
  cases vs with
  | nil => exact ⟨[], by simp [leafEntries, hc]; rfl, h.nil visited⟩
  | cons external entries =>
    by_cases hleaf : page.header.isLeaf
    · refine ⟨[], ?_, h.nil visited⟩
      rw [Trail.values, bind_of_ok (entries_leaf external entries hleaf visited)]
      simp only [leafEntries, hc, hleaf, if_true]
      rfl
    · have hno : leafEntries read id = [] := by simp [leafEntries, hc, hleaf]
      have hentry : ∀ value, (entry descend page external value).Has P := by
        intro value
        unfold entry
        rw [if_neg hleaf]
        exact h.bind (h.idle fun _ => rfl) fun e => hd e.child
      refine ⟨_, by rw [hno]; rfl, ?_⟩
      exact h.bind (h.forM hentry entries) (fun _ => h.idle fun _ => rfl) visited

/-- A page that is new, also one that cannot be read to its end. -/
theorem onPage (hd : ∀ id, (descend id).Has P) (depth : Nat) {id : PageId}
    {visited : Std.HashSet PageId} (hnew : id ∉ visited) :
    P visited (.enter id :: (Trail.page read descend depth id (visited.insert id)).1) := by
  cases hread : read id with
  | error e =>
    have hno : leafEntries read id = [] := by rw [leafEntries, contents_of_error hread]
    rw [page_of_error hread]
    exact h.lost hnew hno
  | ok p =>
    cases hvalues : p.values with
    | error e =>
      have hno : leafEntries read id = [] := by
        rw [leafEntries, contents_of_read hread, hvalues]
        rfl
      rw [values_of_error hread hvalues]
      have hpage := h.page depth p.header hnew
      rwa [hno] at hpage
    | ok vs =>
      obtain ⟨down, hsteps, hdown⟩ :=
        h.values hd (contents_of_ok hread hvalues) (visited.insert id)
      rw [page_of_ok hread hvalues, hsteps]
      refine h.append (h.page depth p.header hnew) ?_
      simpa [marked_enter, marked_visit, marked] using hdown

theorem chain (hd : ∀ id, (descend id).Has P) (depth room : Nat) (id : PageId) :
    (chain read descend depth room id).Has P := by
  induction room generalizing id with
  | zero => exact h.idle fun _ => rfl
  | succ room ih =>
    intro visited
    by_cases hstop : id.isValid → id ∈ visited
    · rw [chain_skip hstop, passed]
      split
      · exact h.again id
      · exact h.nil visited
    · obtain ⟨hv, hnew⟩ := Classical.not_imp.mp hstop
      have henter : enter id visited = ([.enter id], .ok true) := by
        rw [enter, if_neg (by simpa using hnew)]
      have hpage := h.onPage hd depth hnew
      rw [Trail.chain, if_pos hv, bind_of_ok henter, marked_enter, marked_nil, if_pos rfl]
      rcases hsteps : Trail.page read descend depth id (visited.insert id) with ⟨steps, answer⟩
      rw [hsteps] at hpage
      dsimp only at hpage
      cases answer with
      | error e =>
        -- nothing comes behind a page that cannot be read to its end
        rw [bind_of_error hsteps]
        exact hpage
      | ok next =>
        rw [bind_of_ok hsteps, ← marked_enter]
        refine h.append (a := .enter id :: steps) hpage ?_
        cases next with
        | none => exact h.nil _
        | some next => exact ih next _

theorem tree (room : Nat) (id : PageId) : (tree read room id).Has P := by
  induction room generalizing id with
  | zero => exact h.idle fun _ => rfl
  | succ room ih => exact h.chain ih _ _ id

theorem trail (root : PageId) : (trail read root).Has P := h.tree _ root

end Pagewise

/-! Nothing is done twice -/

/-- The trail repeats nothing, wherever it starts. -/
def Trail.Frugal (read : Reader) (t : Trail α) : Prop :=
  ∀ visited, Unrepeated read visited (t visited).1

theorem nothing_unrepeated {read : Reader} (visited : Std.HashSet PageId) :
    Unrepeated read visited [] := .idle rfl rfl

theorem pagewise_unrepeated (read : Reader) : Pagewise read (Unrepeated read) where
  nil := nothing_unrepeated
  append := Unrepeated.append
  lost hnew hno := .enter hnew rfl (by rw [hno]; rfl) (nothing_unrepeated _)
  page _ _ hnew := .enter hnew (by simp) (by simp) (nothing_unrepeated _)
  again _ := .idle rfl rfl

theorem frugal_trail (read : Reader) (root : PageId) : (trail read root).Frugal read :=
  (pagewise_unrepeated read).trail root

/-! Each entry once -/

def Leaf.place (l : Leaf) : PageId × Nat := (l.page.id, l.value.index)

theorem places_leafEntries {read : Reader} (hread : ∀ id page, read id = .ok page → page.id = id)
    (id : PageId) : ∃ tags : List Nat, tags.Nodup ∧
      (leafEntries read id).map Leaf.place = tags.map (id, ·) := by
  unfold leafEntries
  split
  case h_2 => exact ⟨[], .nil, rfl⟩
  case h_1 page external entries hc =>
    split
    case isFalse => exact ⟨[], .nil, rfl⟩
    case isTrue =>
      obtain ⟨hpage, hvalues⟩ := of_contents_ok hc
      have hrange : ((external :: entries).map (·.index)).Nodup := by
        rw [index_values hvalues]
        exact List.nodup_range
      refine ⟨entries.map (·.index), (List.nodup_cons.mp hrange).2, ?_⟩
      simp [Leaf.place, hread id page hpage, Function.comp_def]

theorem Unrepeated.nodup_places {read : Reader} {visited : Std.HashSet PageId} {steps : List Step}
    (h : Unrepeated read visited steps) (hread : ∀ id page, read id = .ok page → page.id = id) :
    ((leaves steps).map Leaf.place).Nodup := by
  rw [h.delivered, List.map_flatMap, List.nodup_flatMap]
  constructor
  · intro id _
    obtain ⟨tags, htags, hplaces⟩ := places_leafEntries hread id
    rw [hplaces]
    exact htags.map fun a b heq => (Prod.mk.inj heq).2
  · refine h.nodup.imp fun {a b} hne => ?_
    obtain ⟨as, -, ha⟩ := places_leafEntries hread a
    obtain ⟨bs, -, hb⟩ := places_leafEntries hread b
    intro place hpa hpb
    change place ∈ (leafEntries read a).map Leaf.place at hpa
    change place ∈ (leafEntries read b).map Leaf.place at hpb
    rw [ha] at hpa
    rw [hb] at hpb
    obtain ⟨_, -, rfl⟩ := List.mem_map.mp hpa
    obtain ⟨_, -, heq⟩ := List.mem_map.mp hpb
    exact hne (Prod.mk.inj heq).1.symm

theorem id_readPage {file : File} {id : PageId} {page : Page} (h : file.readPage id = .ok page) :
    page.id = id := by
  simp only [File.readPage] at h
  split at h
  case isTrue => cases h
  case isFalse =>
    obtain ⟨header, -, hpage⟩ := Outcome.of_bind_ok h
    cases hpage
    rfl

theorem page_of_mem_leafEntries {read : Reader}
    (hread : ∀ id page, read id = .ok page → page.id = id)
    {id : PageId} {l : Leaf} (h : l ∈ leafEntries read id) : l.page.id = id := by
  obtain ⟨tags, -, hplaces⟩ := places_leafEntries hread id
  have hplace := List.mem_map_of_mem (f := Leaf.place) h
  rw [hplaces] at hplace
  obtain ⟨tag, -, htag⟩ := List.mem_map.mp hplace
  exact (Prod.mk.inj htag).1.symm

/-- What is handed over is on the page that it names. -/
theorem mem_leafEntries_of_mem_harvest {file : File} {root : PageId} {l : Leaf}
    (h : l ∈ (harvest file root).1) : l ∈ leafEntries file.readPage l.page.id := by
  have hdelivered := (frugal_trail file.readPage root {}).delivered
  rw [harvest_eq] at h
  obtain ⟨id, -, hl⟩ := List.mem_flatMap.mp (hdelivered ▸ h)
  rwa [page_of_mem_leafEntries (fun _ _ => id_readPage) hl]

/-- No entry is handed over twice, also by a walk that fails. -/
theorem nodup_harvest (file : File) (root : PageId) :
    ((harvest file root).1.map Leaf.place).Nodup := by
  rw [harvest_eq]
  exact (frugal_trail file.readPage root {}).nodup_places fun _ _ => id_readPage

end Ese.Tree
