import Mathlib
import Ese.Proofs.Tree.Harvest
import Ese.Proofs.Tree.Order
/-!
Nesting. The depth that a walk counts is that of the page in the tree, and on the lowest level that
a tree may have there is nothing to descend to: the trail ends at the first branch page there that
has a first child, and it ends like that nowhere else. By induction on the levels, from the lowest
one up.
-/

namespace Ese

/-! Reads fail for lack of bytes -/

/-- It may fail, but not with a complaint about the format. -/
def NeverFormat {α : Type} (x : Except DecodeError α) : Prop := ∀ cause, x ≠ .error (.format cause)

namespace NeverFormat

variable {α β : Type}

theorem ok (a : α) : NeverFormat (.ok a : Except DecodeError α) := nofun

theorem bind {x : Except DecodeError α} {f : α → Except DecodeError β} (hx : NeverFormat x)
    (hf : ∀ a, NeverFormat (f a)) : NeverFormat (x >>= f) := by
  cases x with
  | error e =>
    intro cause h
    cases h
    exact hx cause rfl
  | ok a => exact hf a

theorem map {x : Except DecodeError α} (hx : NeverFormat x) (f : α → β) :
    NeverFormat (x.map f) := by
  cases x with
  | error e =>
    intro cause h
    cases h
    exact hx cause rfl
  | ok a => exact ok (f a)

theorem mapM {f : α → Except DecodeError β} (hf : ∀ a, NeverFormat (f a)) (as : List α) :
    NeverFormat (as.mapM f) := by
  induction as with
  | nil => exact ok []
  | cons a as ih =>
    rw [List.mapM_cons]
    exact (hf a).bind fun b => ih.bind fun bs => ok (b :: bs)

section

variable [ByteSource α] (s : α) (offset : Nat) (part : Part)

theorem slice (count : Nat) : NeverFormat (slice s offset count part) := by
  intro cause h
  unfold Ese.slice at h
  split at h
  · cases h
  · split at h <;> cases h

theorem readU16 : NeverFormat (readU16 s offset part) := ((slice s offset part 2).map _).map _

theorem readU32 : NeverFormat (readU32 s offset part) := ((slice s offset part 4).map _).map _

end

theorem pageHeader [ByteSource α] (s : α) : NeverFormat (Page.Header.read s) := by
  unfold Page.Header.read
  refine (slice s _ _ _).bind fun _ => ?_
  refine (readU32 s _ _).bind fun _ => (readU32 s _ _).bind fun _ => ?_
  refine (readU32 s _ _).bind fun _ => (readU16 s _ _).bind fun _ => ?_
  refine (readU16 s _ _).bind fun _ => (readU16 s _ _).bind fun _ => ?_
  exact (readU32 s _ _).bind fun _ => ok _

theorem readPage (file : File) (id : PageId) : NeverFormat (file.readPage id) := by
  unfold File.readPage
  dsimp only
  split
  · exact nofun
  · exact (pageHeader _).bind fun _ => ok _

theorem values (page : Page) : NeverFormat page.values := by
  refine mapM (fun index => ?_) _
  unfold Page.tag TaggedValue.read
  split
  · exact nofun
  · refine (readU16 _ _ _).bind fun _ => (readU16 _ _ _).bind fun _ => ?_
    exact (slice _ _ _ _).map _

theorem branchEntry (value : TaggedValue) : NeverFormat (BranchEntry.parse value) := by
  have hkey : NeverFormat (KeyHeader.read value) := by
    unfold KeyHeader.read
    split
    · exact (readU16 _ _ _).bind fun _ => (readU16 _ _ _).bind fun _ => ok _
    · exact (readU16 _ _ _).bind fun _ => ok _
  unfold BranchEntry.parse
  refine hkey.bind fun _ => (slice _ _ _ _).bind fun _ => ?_
  exact (readU32 _ _ _).bind fun _ => ok _

end NeverFormat

namespace Tree

variable {σ α β : Type}

/-! Nesting -/

/-- A page at a depth of the tree at `root`: a next page is as deep as the page before it, and a
child one level deeper than its parent. -/
inductive Nested (read : Reader) (root : PageId) : Nat → PageId → Prop where
  | root : root.isValid → Nested read root 0 root
  | next {depth : Nat} {id : PageId} {page : Page} {external : TaggedValue}
      {entries : List TaggedValue} : Nested read root depth id →
      contents read id = .ok (page, external :: entries) → page.header.next.isValid →
      Nested read root depth page.header.next
  | child {depth : Nat} {id child : PageId} : Nested read root depth id →
      child ∈ children read id → child.isValid → Nested read root (depth + 1) child

namespace Trail

def Visits (P : Nat → PageId → Prop) (t : Trail α) : Prop :=
  ∀ visited id depth header, .visit id depth header ∈ (t visited).1 → P depth id

namespace Visits

variable {P : Nat → PageId → Prop} {t : Trail α}

theorem nothing (h : ∀ visited, (t visited).1 = []) : t.Visits P := by
  intro visited id depth header hmem
  rw [h visited] at hmem
  exact absurd hmem List.not_mem_nil

theorem bind {f : α → Trail β} (ht : t.Visits P)
    (hf : ∀ visited steps a, t visited = (steps, .ok a) → (f a).Visits P) :
    (t >>= f).Visits P := by
  intro visited id depth header hmem
  have hfirst := ht visited id depth header
  rcases hsteps : t visited with ⟨steps, answer⟩
  rw [hsteps] at hfirst
  cases answer with
  | error e =>
    rw [bind_of_error hsteps] at hmem
    exact hfirst hmem
  | ok a =>
    rw [bind_of_ok hsteps] at hmem
    rcases List.mem_append.mp hmem with hmem | hmem
    · exact hfirst hmem
    · exact hf visited steps a hsteps _ id depth header hmem

theorem forM {γ : Type} {f : γ → Trail Unit} {xs : List γ} (hf : ∀ x ∈ xs, (f x).Visits P) :
    Visits P (xs.forM f) := by
  induction xs with
  | nil => exact nothing fun _ => rfl
  | cons x xs ih =>
    obtain ⟨hx, hxs⟩ := List.forall_mem_cons.mp hf
    exact hx.bind fun _ _ _ _ => ih hxs

end Visits

section

variable {read : Reader} {root : PageId} {descend : PageId → Trail Unit} {depth : Nat}

/-- The entries of a branch page lead one level down. -/
theorem nested_entry {id : PageId} {page : Page} {external : TaggedValue}
    {entries : List TaggedValue} (hc : contents read id = .ok (page, external :: entries))
    (hd : ∀ child ∈ children read id, (descend child).Visits (Nested read root))
    {value : TaggedValue} (hvalue : value ∈ entries) :
    (entry descend page external value).Visits (Nested read root) := by
  unfold entry
  split
  case isTrue =>
    intro visited id depth header hmem
    cases List.mem_singleton.mp hmem
  case isFalse hbranch =>
    refine Visits.bind (.nothing fun _ => rfl) fun visited steps e hparse => ?_
    apply hd
    rw [children_of_branch hc (Bool.eq_false_of_not_eq_true hbranch)]
    refine List.mem_filterMap.mpr ⟨value, hvalue, ?_⟩
    rw [childOf, (of_ofExcept_ok hparse).1]
    rfl

theorem nested_page {id : PageId} (hid : Nested read root depth id)
    (hd : ∀ child ∈ children read id, (descend child).Visits (Nested read root)) :
    (page read descend depth id).Visits (Nested read root) := by
  refine Visits.bind (.nothing fun _ => rfl) fun _ _ p hp => ?_
  refine Visits.bind (fun _ _ _ _ hmem => ?_) fun _ _ _ _ => ?_
  · cases List.mem_singleton.mp hmem
    exact hid
  refine Visits.bind (.nothing fun _ => rfl) fun _ _ vs hvs => ?_
  have hc := contents_of_ok (of_ofExcept_ok hp).1 (of_ofExcept_ok hvs).1
  cases vs with
  | nil => exact .nothing fun _ => rfl
  | cons external entries =>
    refine Visits.bind ?_ fun _ _ _ _ => .nothing fun _ => rfl
    exact .forM fun value hvalue => nested_entry hc hd hvalue

theorem nested_chain
    (hd : ∀ child, (child.isValid → Nested read root (depth + 1) child) →
      (descend child).Visits (Nested read root)) (steps : Nat) {id : PageId}
    (hid : id.isValid → Nested read root depth id) :
    (chain read descend depth steps id).Visits (Nested read root) := by
  induction steps generalizing id with
  | zero => exact .nothing fun _ => rfl
  | succ steps ih =>
    unfold chain
    split
    case isFalse => exact .nothing fun _ => rfl
    case isTrue hv =>
      refine Visits.bind (fun visited _ _ _ hmem => ?_) fun _ _ new _ => ?_
      · unfold enter at hmem
        split at hmem
        · exact absurd hmem List.not_mem_nil
        · cases List.mem_singleton.mp hmem
      cases new with
      | false =>
        intro visited other depth header hmem
        cases List.mem_singleton.mp hmem
      | true =>
        have hpage := nested_page (hid hv) fun child hmem =>
          hd child fun hvalid => (hid hv).child hmem hvalid
        refine Visits.bind hpage fun _ _ next hnext => ?_
        cases next with
        | none => exact .nothing fun _ => rfl
        | some next =>
          -- a page that leads on has tags, and is read to its end
          obtain ⟨p, vs, _, hc, hvalues, -⟩ := of_page_ok hnext
          cases vs with
          | nil => cases hvalues
          | cons external entries =>
            obtain ⟨_, _, _, -, hanswer, -⟩ := of_bind_ok hvalues
            cases hanswer
            exact ih fun hvalid => (hid hv).next hc hvalid

theorem nested_tree {room : Nat} (hroom : room ≤ maxDepth + 1) {start : PageId}
    (hstart : start.isValid → Nested read root (maxDepth + 1 - room) start) :
    (tree read room start).Visits (Nested read root) := by
  induction room generalizing start with
  | zero => exact .nothing fun _ => rfl
  | succ room ih =>
    have hdepth : maxDepth + 1 - (room + 1) = maxDepth - room := Nat.add_sub_add_right ..
    have hbelow : maxDepth - room + 1 = maxDepth + 1 - room := by omega
    rw [hdepth] at hstart
    apply nested_chain _ _ hstart
    intro child hchild
    rw [hbelow] at hchild
    exact ih (by omega) hchild

end

end Trail

/-- The pages that a walk visits are nested as deep as it counts. -/
theorem nested_trail (read : Reader) (root : PageId) :
    (trail read root).Visits (Nested read root) := by
  apply Trail.nested_tree le_rfl
  intro hv
  rw [Nat.sub_self]
  exact .root hv

/-- A page is marked before it is visited. -/
theorem pagewise_entered (read : Reader) : Pagewise read fun _ steps =>
    ∀ id depth header, .visit id depth header ∈ steps → id ∈ entered steps where
  nil _ _ _ _ h := absurd h List.not_mem_nil
  append := by
    intro _ a b ha hb id depth header h
    rw [entered_append]
    rcases List.mem_append.mp h with h | h
    · exact List.mem_append_left _ (ha id depth header h)
    · exact List.mem_append_right _ (hb id depth header h)
  lost _ _ id depth header h := by cases List.mem_singleton.mp h
  again _ id depth header h := by cases List.mem_singleton.mp h
  page depth header _ id' depth' header' h := by
    rcases List.mem_cons.mp h with h | h
    · cases h
    rcases List.mem_cons.mp h with h | h
    · cases h
      exact List.mem_cons_self
    · obtain ⟨_, _, h⟩ := List.mem_map.mp h
      cases h

/-! The lowest level -/

def tooDeep (start : PageId) (levels : Nat) : Error :=
  .decode (.format (.treeTooDeep start levels))

def firstChild (read : Reader) (id : PageId) : Option PageId :=
  match contents read id with
  | .ok (page, _ :: value :: _) => if page.header.isLeaf then none else childOf value
  | _ => none

theorem firstChild_of_branch {read : Reader} {id : PageId} {page : Page}
    {external value : TaggedValue} {entries : List TaggedValue}
    (hc : contents read id = .ok (page, external :: value :: entries))
    (hbranch : page.header.isLeaf = false) : firstChild read id = childOf value := by
  simp only [firstChild, hc, hbranch, Bool.false_eq_true, if_false]

/-- A branch page on the lowest level is visited, and `start` is its first child. -/
def Bottoms (read : Reader) (steps : List Step) (start : PageId) : Prop :=
  ∃ id header, .visit id maxDepth header ∈ steps ∧ firstChild read id = some start

theorem bottoms_append {read : Reader} {a b : List Step} {start : PageId} :
    Bottoms read (a ++ b) start ↔ Bottoms read a start ∨ Bottoms read b start := by
  simp only [Bottoms, List.mem_append, or_and_right, exists_or]

theorem bottoms_visit {read : Reader} {id start : PageId} {header : Page.Header}
    {steps : List Step} (h : ∀ id depth header, .visit id depth header ∉ steps) :
    Bottoms read (.visit id maxDepth header :: steps) start ↔ firstChild read id = some start := by
  constructor
  · rintro ⟨other, header', hmem, hfirst⟩
    rcases List.mem_cons.mp hmem with hmem | hmem
    · cases hmem
      exact hfirst
    · exact absurd hmem (h other maxDepth header')
  · intro hfirst
    exact ⟨id, header, List.mem_cons_self, hfirst⟩

namespace Trail

/-- It gives up at branch pages on the lowest level, and only there. -/
def Limited (read : Reader) (t : Trail α) : Prop := ∀ visited start levels,
  (t visited).2 = .error (tooDeep start levels) ↔
    levels = maxDepth ∧ Bottoms read (t visited).1 start

namespace Limited

variable {read : Reader} {t : Trail α}

theorem plain (hsteps : ∀ visited id header, .visit id maxDepth header ∉ (t visited).1)
    (hanswer : ∀ visited start levels, (t visited).2 ≠ .error (tooDeep start levels)) :
    t.Limited read := by
  intro visited start levels
  constructor
  · intro h
    exact absurd h (hanswer visited start levels)
  · rintro ⟨-, id, header, hid, -⟩
    exact absurd hid (hsteps visited id header)

theorem pure (a : α) : Limited read (pure a : Trail α) :=
  plain (fun _ _ _ => nofun) fun _ _ _ => nofun

theorem ofExcept {x : Except DecodeError α} (hx : NeverFormat x) : Limited read (ofExcept x) := by
  refine plain (fun _ _ _ => nofun) fun visited start levels h => ?_
  cases x with
  | ok a => cases h
  | error e =>
    cases h
    exact hx _ rfl

theorem bind {f : α → Trail β} (ht : t.Limited read) (hf : ∀ a, (f a).Limited read) :
    (t >>= f).Limited read := by
  intro visited start levels
  have hfirst := ht visited
  rcases hsteps : t visited with ⟨steps, answer⟩
  rw [hsteps] at hfirst
  cases answer with
  | error e =>
    rw [bind_of_error hsteps, ← hfirst start levels]
    simp only [Except.error.injEq]
  | ok a =>
    -- a part that is done with was at no branch page on the lowest level
    have hnone : ¬ Bottoms read steps start := by
      intro hbottom
      cases (hfirst start maxDepth).mpr ⟨rfl, hbottom⟩
    rw [bind_of_ok hsteps, bottoms_append, or_iff_right hnone]
    exact hf a _ start levels

theorem forM {γ : Type} {f : γ → Trail Unit} (hf : ∀ x, (f x).Limited read) (xs : List γ) :
    Limited read (xs.forM f) := by
  induction xs with
  | nil => exact pure ()
  | cons x xs ih => exact bind (hf x) fun _ => ih

section

variable {descend : PageId → Trail Unit} {depth : Nat}

theorem say {s : Step} (hs : ∀ id header, .visit id maxDepth header ≠ s) :
    Limited read (say s) :=
  plain (fun _ id header hmem => hs id header (List.mem_singleton.mp hmem)) fun _ _ _ => nofun

theorem enter (id : PageId) : Limited read (enter id) := by
  refine plain (fun visited _ _ hmem => ?_) fun visited _ _ h => ?_
  · unfold Trail.enter at hmem
    split at hmem
    · cases hmem
    · cases List.mem_singleton.mp hmem
  · unfold Trail.enter at h
    split at h <;> cases h

/-- A page above the lowest level. -/
theorem page (hread : ∀ id, NeverFormat (read id)) (hdepth : depth ≠ maxDepth)
    (hd : ∀ id, (descend id).Limited read) (id : PageId) :
    (page read descend depth id).Limited read := by
  refine (ofExcept (hread id)).bind fun p => (say fun _ _ h => ?_).bind fun _ => ?_
  · cases h
    exact hdepth rfl
  refine (ofExcept (.values p)).bind fun vs => ?_
  cases vs with
  | nil => exact pure none
  | cons external entries =>
    refine (forM (fun value => ?_) entries).bind fun _ => pure _
    unfold entry
    split
    · exact say nofun
    · exact (ofExcept (.branchEntry value)).bind fun e => hd e.child

/-- The values of a page on the lowest level: without a first child there is nothing to give up for,
and with one there is nothing else. -/
theorem lowestValues {id : PageId} {p : Page} {vs : List TaggedValue}
    (hc : contents read id = .ok (p, vs)) (visited : Std.HashSet PageId) :
    (firstChild read id = none ∧
      (∀ id depth header, .visit id depth header ∉ (values (Trail.tree read 0) p vs visited).1) ∧
      ∀ start levels,
        (values (Trail.tree read 0) p vs visited).2 ≠ .error (tooDeep start levels)) ∨
    ∃ child, firstChild read id = some child ∧
      values (Trail.tree read 0) p vs visited = ([], .error (tooDeep child maxDepth)) := by
  rcases vs with _ | ⟨external, entries⟩
  · refine Or.inl ⟨by simp only [firstChild, hc], fun _ _ _ => List.not_mem_nil, fun _ _ h => ?_⟩
    cases h
  by_cases hleaf : p.header.isLeaf
  · refine Or.inl ⟨?_, ?_, ?_⟩
    · rcases entries with _ | ⟨value, entries⟩ <;> simp [firstChild, hc, hleaf]
    · rw [values, bind_of_ok (entries_leaf external entries hleaf visited)]
      intro id depth header hmem
      rcases List.mem_append.mp hmem with hmem | hmem
      · obtain ⟨_, _, hstep⟩ := List.mem_map.mp hmem
        cases hstep
      · cases hmem
    · rw [values, bind_of_ok (entries_leaf external entries hleaf visited)]
      intro start levels h
      cases h
  rcases entries with _ | ⟨value, entries⟩
  · refine Or.inl ⟨by simp only [firstChild, hc], fun _ _ _ => List.not_mem_nil, fun _ _ h => ?_⟩
    cases h
  have hfirst := firstChild_of_branch hc (Bool.eq_false_of_not_eq_true hleaf)
  -- nothing comes behind the first entry, whether it can be read or not
  cases hparse : BranchEntry.parse value with
  | error e =>
    have hentry :
        entry (Trail.tree read 0) p external value visited = ([], .error (.decode e)) := by
      rw [entry, if_neg hleaf, hparse]
      rfl
    have hvalues : values (Trail.tree read 0) p (external :: value :: entries) visited =
        ([], .error (.decode e)) := bind_of_error (bind_of_error hentry)
    rw [hvalues]
    refine Or.inl ⟨?_, fun _ _ _ => List.not_mem_nil, fun start levels h => ?_⟩
    · rw [hfirst, childOf, hparse]
      rfl
    · cases h
      exact NeverFormat.branchEntry value _ hparse
  | ok e =>
    have hentry : entry (Trail.tree read 0) p external value visited =
        ([], .error (tooDeep e.child maxDepth)) := by
      rw [entry, if_neg hleaf, hparse]
      rfl
    refine Or.inr ⟨e.child, ?_, bind_of_error (bind_of_error hentry)⟩
    rw [hfirst, childOf, hparse]
    rfl

/-- A page on the lowest level: it has no first child, or the first child is one level too many. -/
theorem lowestPage (hread : ∀ id, NeverFormat (read id)) (id : PageId) :
    (Trail.page read (Trail.tree read 0) maxDepth id).Limited read := by
  intro visited start levels
  cases hp : read id with
  | error e =>
    rw [page_of_error hp]
    constructor
    · intro h
      cases h
      exact absurd hp (hread id _)
    · rintro ⟨-, _, _, hmem, -⟩
      cases hmem
  | ok p =>
    cases hvalues : p.values with
    | error e =>
      rw [values_of_error hp hvalues, bottoms_visit (fun _ _ _ => List.not_mem_nil)]
      constructor
      · intro h
        cases h
        exact absurd hvalues (NeverFormat.values p _)
      · rintro ⟨-, hfirst⟩
        rw [firstChild, contents_of_read hp, hvalues] at hfirst
        cases hfirst
    | ok vs =>
      rw [page_of_ok hp hvalues]
      have hc := contents_of_ok hp hvalues
      rcases lowestValues hc visited with ⟨hnone, hquiet, hanswer⟩ | ⟨child, hfirst, hdeep⟩
      · rw [bottoms_visit hquiet, hnone]
        constructor
        · intro h
          exact absurd h (hanswer start levels)
        · rintro ⟨-, hsome⟩
          cases hsome
      · rw [hdeep, bottoms_visit (fun _ _ _ => List.not_mem_nil), hfirst]
        constructor
        · intro h
          cases h
          exact ⟨rfl, rfl⟩
        · rintro ⟨rfl, hsome⟩
          cases hsome
          rfl

theorem chain (hpage : ∀ id, (Trail.page read descend depth id).Limited read) (steps : Nat)
    (id : PageId) : (chain read descend depth steps id).Limited read := by
  induction steps generalizing id with
  | zero =>
    apply ofExcept
    exact nofun
  | succ steps ih =>
    unfold Trail.chain
    split
    · refine (enter id).bind fun new => ?_
      cases new with
      | false =>
        refine say fun _ _ h => ?_
        cases h
      | true =>
        refine (hpage id).bind fun next => ?_
        cases next with
        | none => exact pure ()
        | some next => exact ih next
    · exact pure ()

theorem tree (hread : ∀ id, NeverFormat (read id)) (room : Nat) (start : PageId) :
    (tree read (room + 1) start).Limited read := by
  induction room generalizing start with
  | zero => exact chain (lowestPage hread) _ start
  | succ room ih =>
    have habove : maxDepth - (room + 1) ≠ maxDepth := by
      unfold maxDepth
      omega
    exact chain (page hread habove ih) _ start

end

end Limited

end Trail

theorem limited_trail {read : Reader} (hread : ∀ id, NeverFormat (read id)) (root : PageId) :
    (trail read root).Limited read := Trail.Limited.tree hread maxDepth root

end Tree

end Ese
