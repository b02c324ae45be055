import Mathlib
import Ese.Catalog.Builder
import Ese.Proofs.Outcome
import Ese.Proofs.Tree.Replay
/-!
Loading a catalog is a fold: the leaf entries of the catalog tree are decoded and pushed one after
the other, and the first that fails ends it.
-/

namespace Ese.Catalog

open Ese.Tree

def entryOf (leaf : Leaf) : Except DecodeError Entry := do
  let (_, payload) ← leaf.split
  Entry.decode payload

/-- One entry more, if it decodes and belongs somewhere. -/
def extend (b : Builder) (leaf : Leaf) : Except DecodeError Builder := do
  b.push (← entryOf leaf)

/-- A leaf entry as the builder takes it, without its log. -/
def take (leaf : Leaf) : Callback Builder Unit := fun b =>
  if leaf.page.header.holdsRecords then
    match extend b leaf with
    | .ok b' => .ok () b'
    | .error e => .error (.decode e) b
  else .ok () b

/-- What is logged about an entry does not change what becomes of it. -/
theorem onLeaf_eq (trace : Trace.Switches) {leaf : Leaf} (h : leaf.page.header.holdsRecords)
    (j : Journal Builder) :
    ∃ log, onLeaf trace leaf j = match extend j.state leaf with
      | .ok b => .ok () { log, state := b }
      | .error e => .error (.decode e) { j with log } := by
  unfold onLeaf extend entryOf
  rw [if_pos h]
  cases leaf.split with
  | error e => exact ⟨j.log, rfl⟩
  | ok pair =>
    obtain ⟨key, payload⟩ := pair
    simp only [bind_apply, liftM_apply]
    cases hentry : Entry.decode payload with
    | error e =>
      refine ⟨j.log, ?_⟩
      simp only [Bind.bind, Except.bind, hentry]
    | ok entry =>
      obtain ⟨before, hbefore⟩ := logIf_apply trace.catalog
        (.catalogRecord leaf.page.id leaf.value.index entry) j
      obtain ⟨log, hlog⟩ := forM_log (j.state.remarks entry) { j with log := before }
      have hget : (get : Run Builder (Journal Builder)) { log := before, state := j.state } =
          .ok { log := before, state := j.state } { log := before, state := j.state } := rfl
      refine ⟨log, ?_⟩
      simp only [Bind.bind, Except.bind, hentry, hbefore, hget, hlog]
      cases j.state.push entry <;> rfl

theorem calls_onLeaf (file : File) (trace : Trace.Switches) :
    (Visitor.ofFile file trace (onLeaf trace)).Calls take := by
  intro l w
  change Walk.onState (Walk.ofRun (onLeaf trace l) w) = take l w.journal.state
  by_cases hrecords : l.page.header.holdsRecords
  case neg =>
    rw [take, if_neg hrecords]
    unfold Walk.ofRun onLeaf
    rw [if_neg hrecords]
    rfl
  case pos =>
    obtain ⟨log, h⟩ := onLeaf_eq trace hrecords w.journal
    rw [take, if_pos hrecords, Walk.ofRun, h]
    cases extend w.journal.state l <;> rfl

/-- A catalog is what the leaf entries of the catalog tree make of an empty builder. -/
theorem load_eq (file : File) (trace : Trace.Switches) (log : Array Trace.Event) :
    ∃ log', load file trace log = match sweep file.readPage PageId.catalog take {} with
      | .ok () b => .ok b.finish log'
      | .error e _ => .error e log' := by
  obtain ⟨pages, hsurvey⟩ := onState_survey (fun _ => rfl) (calls_onLeaf file trace)
    PageId.catalog { log, state := {} }
  rw [bind_apply] at hsurvey
  unfold load
  simp only at hsurvey ⊢
  generalize Visitor.survey _ _ _ = surveyed at hsurvey ⊢
  cases hsweep : sweep file.readPage PageId.catalog take {} with
  | error e b =>
    rw [hsweep] at hsurvey
    cases surveyed with
    | ok n j => cases hsurvey
    | error e' j =>
      obtain ⟨rfl, -⟩ := EStateM.Result.error.inj hsurvey
      exact ⟨j.log, rfl⟩
  | ok u b =>
    rw [hsweep] at hsurvey
    cases surveyed with
    | error e' j => cases hsurvey
    | ok n j =>
      obtain ⟨-, hstate⟩ := EStateM.Result.ok.inj hsurvey
      rw [← hstate]
      exact ⟨_, rfl⟩

theorem foldlM_extend {ls : List Leaf} {entries : List Entry} (h : ls.mapM entryOf = .ok entries)
    (b : Builder) : ls.foldlM extend b = entries.foldlM Builder.push b := by
  induction ls generalizing entries b with
  | nil =>
    cases h
    rfl
  | cons l ls ih =>
    rw [List.mapM_cons] at h
    obtain ⟨entry, hentry, h⟩ := Outcome.of_bind_ok h
    obtain ⟨rest, hrest, hcons⟩ := Outcome.of_bind_ok h
    cases hcons
    have hextend : extend b l = b.push entry := by
      unfold extend
      rw [hentry]
      rfl
    rw [List.foldlM_cons, List.foldlM_cons, hextend]
    cases b.push entry with
    | error reason => rfl
    | ok b' => exact ih hrest b'

/-- Leaf entries are taken as the fold of those on pages with records has it. -/
theorem forM_take_eq (ls : List Leaf) (b : Builder) :
    match (ls.filter (·.page.header.holdsRecords)).foldlM extend b with
    | .ok b' => ls.forM take b = .ok () b'
    | .error reason => ∃ b', ls.forM take b = .error (.decode reason) b' := by
  induction ls generalizing b with
  | nil => exact rfl
  | cons l ls ih =>
    rw [forM_cons_apply, take]
    by_cases hrecords : l.page.header.holdsRecords
    case neg =>
      have hskip : (l :: ls).filter (·.page.header.holdsRecords) =
          ls.filter (·.page.header.holdsRecords) := List.filter_cons_of_neg hrecords
      rw [hskip, if_neg hrecords]
      exact ih b
    case pos =>
      have hkeep : (l :: ls).filter (·.page.header.holdsRecords) =
          l :: ls.filter (·.page.header.holdsRecords) := List.filter_cons_of_pos hrecords
      rw [hkeep, if_pos hrecords, List.foldlM_cons]
      cases extend b l with
      | error reason => exact ⟨b, rfl⟩
      | ok b' => exact ih b'

/-- Entries of record pages that all decode are pushed in order. -/
theorem forM_take {ls : List Leaf} {entries : List Entry} {b b' : Builder}
    (hrecords : ∀ l ∈ ls, l.page.header.holdsRecords) (hentries : ls.mapM entryOf = .ok entries)
    (hfold : entries.foldlM Builder.push b = .ok b') : ls.forM take b = .ok () b' := by
  have htake := forM_take_eq ls b
  rwa [List.filter_eq_self.mpr hrecords, foldlM_extend hentries, hfold] at htake

end Ese.Catalog
