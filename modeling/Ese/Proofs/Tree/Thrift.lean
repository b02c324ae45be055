import Mathlib
import Ese.Proofs.Database.EndToEnd
import Ese.Proofs.Tree.Bounds
import Ese.Proofs.Tree.Ledger
/-!
What walks cost. However many walks a walker is used for, and however they end, it asks for each
page at most once, hands over each entry at most once, and visits no more pages than the file has,
but for one page in each walk that fails.
-/

namespace Ese.Tree

variable {σ : Type} {file : File}

def observed (file : File) (trace : Trace.Switches) (errands : List (Errand σ)) (j : Journal σ) :
    List (Except Error Unit) × Walker (Watched σ) :=
  runEach (errands.map (Errand.watched file trace))
    { visited := {}, journal := { log := j.log, state := { state := j.state } } }

def walked (file : File) (trace : Trace.Switches) (errands : List (Errand σ)) (j : Journal σ) :
    List (Except Error Unit) × Walker σ :=
  runEach (errands.map (Errand.walk file trace)) { visited := {}, journal := j }

def pagesRead (file : File) (trace : Trace.Switches) (errands : List (Errand σ)) (j : Journal σ) :
    List PageId := (observed file trace errands j).2.journal.state.reads

def leavesHanded (file : File) (trace : Trace.Switches) (errands : List (Errand σ))
    (j : Journal σ) : List Leaf := (observed file trace errands j).2.journal.state.handed

/-- What holds of all walks with one walker. -/
structure Thrifty (file : File) (trace : Trace.Switches) (errands : List (Errand σ))
    (j : Journal σ) : Prop where
  same : walked file trace errands j =
    ((observed file trace errands j).1, (observed file trace errands j).2.forget)
  /-- Chains end within the pages of the file, and no more than 66 are open at once: what were to
  happen beyond makes no difference to a walk. -/
  ends : ∀ e ∈ errands, ∀ (stuck : PageId → Walk σ Unit) (steps nest : Nat),
    file.pageCount < steps → 66 ≤ nest →
    (Visitor.ofFile file trace e.onLeaf).walkWithin stuck steps nest 0 e.root = e.walk file trace
  reads : (pagesRead file trace errands j).Nodup
  handed : ((leavesHanded file trace errands j).map Leaf.place).Nodup
  valid : ∀ id ∈ pagesRead file trace errands j, id.value ≠ 0 ∧ id.value ≠ 0xFFFFFFFF
  inside : ∀ id ∈ pagesRead file trace errands j, ∀ page, file.readPage id = .ok page →
    1 ≤ id.value.toNat ∧ id.value.toNat ≤ file.pageCount
  visited : ∀ id, id ∈ (walked file trace errands j).2.visited ↔ id ∈ pagesRead file trace errands j
  size : (walked file trace errands j).2.visited.size ≤
    file.pageCount + failedWalks (walked file trace errands j).1
  size_ok : (∀ answer ∈ (walked file trace errands j).1, answer = .ok ()) →
    (walked file trace errands j).2.visited.size ≤ file.pageCount
  grows : ∀ before after, errands = before ++ after →
    ∀ id ∈ (walked file trace before j).2.visited, id ∈ (walked file trace errands j).2.visited

/-! Counting pages -/

theorem size_le_of_mem_iff {visited : Std.HashSet PageId} {ids : List PageId}
    (h : ∀ id, id ∈ visited ↔ id ∈ ids) : visited.size ≤ ids.length := by
  have hnodup : visited.toList.Nodup :=
    visited.distinct_toList.imp fun {a b} hne heq => by simp [heq] at hne
  rw [← Std.HashSet.length_toList]
  exact (hnodup.subperm fun id hid => (h id).mp (Std.HashSet.mem_toList.mp hid)).length_le

/-- Different pages that can be read are no more than the pages of the count. -/
theorem length_le_pageCount (hsize : 0 < file.pageSize) {ids : List PageId} (hnodup : ids.Nodup)
    (hvalid : ∀ id ∈ ids, id.isValid) (hread : ∀ id ∈ ids, (file.readPage id).isOk) :
    ids.length ≤ file.pageCount := by
  have hinj : Function.Injective fun id : PageId => id.value.toNat := fun a b h => by
    cases a
    cases b
    exact congrArg PageId.mk (UInt32.toNat_inj.mp h)
  have hsub : ids.map (fun id => id.value.toNat) ⊆ List.range' 1 file.pageCount := by
    intro n hn
    obtain ⟨id, hid, rfl⟩ := List.mem_map.mp hn
    have hfirst := PageId.one_le_of_isValid (hvalid id hid)
    have hlast : id.value.toNat ≤ file.pageCount := by
      have hok := hread id hid
      rcases hpage : file.readPage id with e | page
      · rw [hpage] at hok
        cases hok
      · exact File.le_pageCount hsize hpage
    rw [List.mem_range'_1]
    omega
  have hle := ((hnodup.map hinj).subperm hsub).length_le
  rwa [List.length_map, List.length_range'] at hle

theorem Ledger.size_le {w : Walker (Watched σ)} (h : Ledger w) (hsize : 0 < file.pageSize) :
    w.visited.size ≤ file.pageCount + unreadable file w := by
  let readable := w.journal.state.reads.filter fun id => (file.readPage id).isOk
  have hreadable : readable.length ≤ file.pageCount :=
    length_le_pageCount hsize (h.reads.filter _)
      (fun id hid => h.valid id (List.mem_of_mem_filter hid))
      (fun id hid => (List.mem_filter.mp hid).2)
  have hsplit : w.journal.state.reads.length = readable.length + unreadable file w := by
    rw [List.length_eq_countP_add_countP fun id => (file.readPage id).isOk,
      List.countP_eq_length_filter]
    simp only [Bool.not_eq_true, Bool.decide_eq_false]
    rfl
  have hvisited := size_le_of_mem_iff h.visited
  omega

/-! All walks with one walker -/

section

variable {trace : Trace.Switches} {errands : List (Errand σ)} {j : Journal σ}

theorem walked_eq : walked file trace errands j =
    ((observed file trace errands j).1, (observed file trace errands j).2.forget) :=
  Errand.runEach_watched file trace errands
    { visited := {}, journal := { log := j.log, state := { state := j.state } } }

theorem sound_watched : ∀ a ∈ errands.map (Errand.watched file trace), Sound file a := by
  intro a ha
  obtain ⟨e, -, rfl⟩ := List.mem_map.mp ha
  exact sound_walk trace e.onLeaf e.root

theorem extends_observed : Extends file (failedWalks (observed file trace errands j).1)
    { visited := {}, journal := { log := j.log, state := { state := j.state } } }
    (observed file trace errands j).2 := by
  refine extends_runEach sound_watched ⟨.nil, ?_, ?_, .nil, ?_⟩
  · simp
  · simp
  · simp

theorem ledger_observed : Ledger (observed file trace errands j).2 := extends_observed.ledger

theorem mem_visited_walked {id : PageId} :
    id ∈ (walked file trace errands j).2.visited ↔ id ∈ pagesRead file trace errands j := by
  rw [walked_eq]
  exact ledger_observed.visited id

theorem size_walked (hsize : 0 < file.pageSize) : (walked file trace errands j).2.visited.size ≤
    file.pageCount + failedWalks (walked file trace errands j).1 := by
  have hledger : Ledger (observed file trace errands j).2 := ledger_observed
  have hextends : Extends file (failedWalks (observed file trace errands j).1) _ _ :=
    extends_observed
  have hvisited := hledger.size_le hsize
  have hfailed := hextends.unreadable
  change unreadable file _ ≤ 0 + _ at hfailed
  rw [Nat.zero_add] at hfailed
  rw [walked_eq]
  exact hvisited.trans (Nat.add_le_add_left hfailed _)

theorem pagesRead_append (before after : List (Errand σ)) :
    pagesRead file trace before j <+: pagesRead file trace (before ++ after) j := by
  have hfirst : Ledger (observed file trace before j).2 := ledger_observed
  have hsound : ∀ a ∈ after.map (Errand.watched file trace), Sound file a := sound_watched
  have hrest := extends_runEach hsound hfirst
  unfold pagesRead observed
  rw [List.map_append, runEach_append]
  exact hrest.reads

end

/-- Walks terminate and repeat no work. -/
theorem thrifty_of_ofBytes {source : ByteArray} (h : File.ofBytes source = .ok file)
    (trace : Trace.Switches) (errands : List (Errand σ)) (j : Journal σ) :
    Thrifty file trace errands j := by
  have hsize : 0 < file.pageSize := by
    obtain ⟨-, hsupported, -⟩ := File.of_ofBytes h
    exact lt_of_lt_of_le (by decide) hsupported.bounds.1
  have hledger : Ledger (observed file trace errands j).2 := ledger_observed
  refine ⟨walked_eq, ?_, hledger.reads, hledger.handed, ?_, ?_, fun id => mem_visited_walked,
    size_walked hsize, ?_, ?_⟩
  · intro e _ stuck steps nest hsteps hnest
    exact walkWithin_eq_walk hsize (fun _ => rfl) stuck hsteps hnest e.root
  · intro id hid
    have hv := hledger.valid id hid
    simpa [PageId.isValid] using hv
  · intro id hid page hpage
    exact ⟨PageId.one_le_of_isValid (hledger.valid id hid), File.le_pageCount hsize hpage⟩
  · intro hall
    have hnone : failedWalks (walked file trace errands j).1 = 0 := by
      refine List.countP_eq_zero.mpr fun answer hanswer => ?_
      rw [hall answer hanswer]
      exact Bool.false_ne_true
    have hbound : (walked file trace errands j).2.visited.size ≤
        file.pageCount + failedWalks (walked file trace errands j).1 := size_walked hsize
    rwa [hnone] at hbound
  · rintro before after rfl id hid
    rw [mem_visited_walked] at hid ⊢
    exact (pagesRead_append before after).subset hid

/-- The second of three walks is given up at its first entry. -/
theorem thrifty_twoTables : ∃ file, File.ofBytes Build.twoTablesImage = .ok file ∧
    Thrifty file {} [⟨PageId.catalog, fun _ => pure ()⟩, ⟨⟨5⟩, fun _ => throw .cancelled⟩,
      ⟨⟨7⟩, fun l => Run.ofCallback (keepLeaf l)⟩] ⟨#[], []⟩ := by
  obtain ⟨file, hfile, -⟩ := Build.ofBytes_twoTables
  exact ⟨file, hfile, thrifty_of_ofBytes hfile _ _ _⟩

end Ese.Tree
