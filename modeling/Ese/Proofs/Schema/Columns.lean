import Mathlib
import Ese.Proofs.Keyed
import Ese.Schema.Column
/-!
Looking columns up by id. Ids are different, so a column of the list is found under its id, and an
insertion changes the answer for one id only.
-/

namespace Ese.Columns

theorem byId?_eq_some_iff {cs : Columns} {id : UInt32} {c : Column} :
    cs.byId? id = some c ↔ c ∈ cs.toList ∧ c.id = id := by
  unfold byId?
  constructor
  · intro h
    exact ⟨List.mem_of_find?_eq_some h, by simpa using List.find?_some h⟩
  · rintro ⟨hc, rfl⟩
    have hids : (cs.toList.map (·.id)).Nodup :=
      List.pairwise_map.mpr (cs.sorted.imp UInt32.ne_of_lt)
    exact Keyed.find?_eq hids hc

theorem find?_insertInto (c : Column) (l : List Column) (id : UInt32) :
    ((insertInto c l).find? fun x => x.id = id) =
      if c.id = id then some c else l.find? fun x => x.id = id := by
  induction l with
  | nil => by_cases h : c.id = id <;> simp [insertInto, h]
  | cons d rest ih =>
    rw [insertInto]
    by_cases hlt : c.id < d.id
    · rw [if_pos hlt]
      by_cases h : c.id = id <;> simp [h]
    · by_cases heq : c.id = d.id
      · rw [if_neg hlt, if_pos heq, heq]
        by_cases h : d.id = id <;> simp [heq, h]
      · rw [if_neg hlt, if_neg heq]
        by_cases h : d.id = id
        · -- the column in front is found, and the new one has another id
          have hc : c.id ≠ id := fun hc => heq (hc.trans h.symm)
          simp [h, hc]
        · simp [h, ih]

theorem byId?_insert (cs : Columns) (c : Column) (id : UInt32) :
    (cs.insert c).byId? id = if c.id = id then some c else cs.byId? id :=
  find?_insertInto c cs.toList id

/-- Of several columns with one id, the last that was inserted is found. -/
theorem byId?_foldl_insert (added : List Column) (cs : Columns) (id : UInt32) :
    (added.foldl insert cs).byId? id =
      (added.reverse.find? fun c => c.id = id).or (cs.byId? id) := by
  induction added generalizing cs with
  | nil => rfl
  | cons c added ih =>
    rw [List.foldl_cons, ih, byId?_insert, List.reverse_cons, List.find?_append, Option.or_assoc]
    congr 1
    by_cases h : c.id = id <;> simp [h]

end Ese.Columns
