import Mathlib
/-!
Lists whose elements have different keys.
-/

namespace Ese.Keyed

variable {α κ : Type} [DecidableEq κ] {key : α → κ} {as : List α}

theorem find?_eq (h : (as.map key).Nodup) {a : α} (ha : a ∈ as) :
    (as.find? fun x => key x = key a) = some a := by
  induction as with
  | nil => exact absurd ha List.not_mem_nil
  | cons x as ih =>
    obtain ⟨hx, h⟩ := List.nodup_cons.mp h
    rcases List.mem_cons.mp ha with rfl | ha
    · exact List.find?_cons_of_pos (by simp)
    · have hne : key x ≠ key a := fun heq => hx (List.mem_map.mpr ⟨a, ha, heq.symm⟩)
      rw [List.find?_cons_of_neg (by simpa using hne)]
      exact ih h ha

end Ese.Keyed
