import Mathlib
import Ese.Bytes.Source
/-!
Spans: stretches of a list of bytes by their two ends. Spans that are laid out stand one behind the
other; spans that tile a stretch leave no gaps, and their bytes are those of the stretch, each of
them once.
-/

namespace Ese

structure Span where
  first : Nat
  last : Nat
  deriving DecidableEq, Repr

namespace Span

def of (s : Span) (record : Bytes) : Bytes := (record.drop s.first).take (s.last - s.first)

def length (s : Span) : Nat := s.last - s.first

structure Within (s : Span) (record : Bytes) : Prop where
  ordered : s.first ≤ s.last
  inside : s.last ≤ record.length

theorem within_of_slice {record bytes : Bytes} {first last : Nat} {part : Part}
    (hle : first ≤ last) (h : slice record first (last - first) part = .ok bytes) :
    Within ⟨first, last⟩ record ∧ bytes = of ⟨first, last⟩ record := by
  obtain ⟨hinside, rfl⟩ := slice_eq_ok_iff.mp h
  exact ⟨⟨hle, show last ≤ record.length by omega⟩, rfl⟩

theorem of_suffix (first : Nat) (record : Bytes) :
    of ⟨first, record.length⟩ record = record.drop first := by
  rw [of, ← List.length_drop, List.take_length]

def Before (a b : Span) : Prop := a.last ≤ b.first

instance (a b : Span) : Decidable (a.Before b) := inferInstanceAs (Decidable (a.last ≤ b.first))

/-- The spans stand one behind the other between two bounds. -/
def Laid : (lo : Nat) → List Span → (hi : Nat) → Prop
  | lo, [], hi => lo ≤ hi
  | lo, s :: spans, hi => lo ≤ s.first ∧ s.first ≤ s.last ∧ Laid s.last spans hi

/-- Each span starts where the one before it ends, the first at `lo`, and the last ends at `hi`. -/
def Tiles : (lo : Nat) → List Span → (hi : Nat) → Prop
  | lo, [], hi => lo = hi
  | lo, s :: spans, hi => s.first = lo ∧ s.first ≤ s.last ∧ Tiles s.last spans hi

variable {lo mid hi : Nat} {spans a b : List Span}

namespace Laid

theorem le (h : Laid lo spans hi) : lo ≤ hi := by
  induction spans generalizing lo with
  | nil => exact h
  | cons s spans ih => exact h.1.trans (h.2.1.trans (ih h.2.2))

theorem of_le (hle : lo ≤ mid) (h : Laid mid spans hi) : Laid lo spans hi := by
  cases spans with
  | nil => exact hle.trans h
  | cons s spans => exact ⟨hle.trans h.1, h.2⟩

theorem append (ha : Laid lo a mid) (hb : Laid mid b hi) : Laid lo (a ++ b) hi := by
  induction a generalizing lo with
  | nil => exact of_le ha hb
  | cons s a ih => exact ⟨ha.1, ha.2.1, ih ha.2.2⟩

theorem first_ge (h : Laid lo spans hi) : ∀ s ∈ spans, lo ≤ s.first := by
  induction spans generalizing lo with
  | nil => simp
  | cons s spans ih =>
    refine List.forall_mem_cons.mpr ⟨h.1, fun x hx => ?_⟩
    exact h.1.trans (h.2.1.trans (ih h.2.2 x hx))

theorem last_le (h : Laid lo spans hi) : ∀ s ∈ spans, s.last ≤ hi := by
  induction spans generalizing lo with
  | nil => simp
  | cons s spans ih => exact List.forall_mem_cons.mpr ⟨h.2.2.le, ih h.2.2⟩

theorem pairwise (h : Laid lo spans hi) : spans.Pairwise Before := by
  induction spans generalizing lo with
  | nil => exact .nil
  | cons s spans ih => exact List.pairwise_cons.mpr ⟨h.2.2.first_ge, ih h.2.2⟩

theorem sorted (h : Laid lo spans hi) : (spans.map first).Pairwise (· ≤ ·) := by
  induction spans generalizing lo with
  | nil => exact .nil
  | cons s spans ih =>
    refine List.pairwise_cons.mpr ⟨List.forall_mem_map.mpr fun x hx => ?_, ih h.2.2⟩
    exact h.2.1.trans (h.2.2.first_ge x hx)

theorem first_le (h : Laid lo spans hi) : ∀ s ∈ spans, s.first ≤ hi := by
  induction spans generalizing lo with
  | nil => simp
  | cons s spans ih => exact List.forall_mem_cons.mpr ⟨h.2.1.trans h.2.2.le, ih h.2.2⟩

end Laid

namespace Tiles

theorem laid (h : Tiles lo spans hi) : Laid lo spans hi := by
  induction spans generalizing lo with
  | nil => exact Nat.le_of_eq h
  | cons s spans ih => exact ⟨Nat.le_of_eq h.1.symm, h.2.1, ih h.2.2⟩

theorem exists_last {s : Span} (h : Tiles lo (s :: spans) hi) : ∃ x ∈ s :: spans, x.last = hi := by
  induction spans generalizing lo s with
  | nil => exact ⟨s, List.mem_cons_self, h.2.2⟩
  | cons next spans ih =>
    obtain ⟨x, hx, hlast⟩ := ih h.2.2
    exact ⟨x, List.mem_cons_of_mem s hx, hlast⟩

/-- No byte is lost and none is in two spans. -/
theorem flatMap_of (h : Tiles lo spans hi) (record : Bytes) :
    spans.flatMap (·.of record) = of ⟨lo, hi⟩ record := by
  induction spans generalizing lo with
  | nil =>
    obtain rfl : lo = hi := h
    rw [of, Nat.sub_self]
    rfl
  | cons s spans ih =>
    obtain ⟨rfl, hle, hrest⟩ := h
    have hlast := hrest.laid.le
    have hlength : hi - s.first = (s.last - s.first) + (hi - s.last) := by omega
    rw [List.flatMap_cons, ih hrest, of, of, of, hlength, List.take_add, List.drop_drop,
      Nat.add_sub_of_le hle]

end Tiles

end Span

end Ese
