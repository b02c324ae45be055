import Mathlib
import Ese.Proofs.Outcome
import Ese.Run
/-!
Operations as a machine does them: numbers fit a word, differences are not negative, nothing is
divided by zero, and what is taken out of a buffer is in it. Where that fails the operation ends in
a fault. The reader is written out with these operations in the modules behind this one; each of its
steps is shown to be safe, which is to do what the reader does and to come to no fault.
-/

namespace Ese

/-- The error is about the bytes of a file, and not a fault of the reader. -/
def DecodeError.Faultless : DecodeError → Prop
  | .fault _ => False
  | _ => True

def Error.Faultless : Error → Prop
  | .decode e => e.Faultless
  | .rowErrors _ errors => ∀ e ∈ errors, e.reason.Faultless
  | _ => True

namespace Machine

variable {α β ε σ τ : Type}

/-! Operations -/

/-- A word of so many bits has to hold the number. -/
def fit (bits n : Nat) : Except DecodeError Nat :=
  if n < 2 ^ bits then .ok n else .error (.fault (.overflow bits n))

def add (bits a b : Nat) : Except DecodeError Nat := fit bits (a + b)

def mul (bits a b : Nat) : Except DecodeError Nat := fit bits (a * b)

def sub (a b : Nat) : Except DecodeError Nat :=
  if b ≤ a then .ok (a - b) else .error (.fault (.negative a b))

def div (a b : Nat) : Except DecodeError Nat :=
  if b = 0 then .error (.fault .zeroDivisor) else .ok (a / b)

/-- No bit may be lost on the left. -/
def shiftLeft (bits a amount : Nat) : Except DecodeError Nat :=
  if amount < bits then fit bits (a <<< amount) else .error (.fault (.overshift bits amount))

def shiftRight (bits a amount : Nat) : Except DecodeError Nat :=
  if amount < bits then .ok (a >>> amount) else .error (.fault (.overshift bits amount))

def item (items : List α) (index : Nat) : Except DecodeError α :=
  match items[index]? with
  | some a => .ok a
  | none => .error (.fault (.outside index items.length))

def between (items : List α) (first last : Nat) : Except DecodeError (List α) :=
  if first ≤ last ∧ last ≤ items.length then .ok ((items.drop first).take (last - first))
  else .error (.fault (.outside last items.length))

theorem map_eq_bind (f : α → β) (x : Except DecodeError α) :
    x.map f = (x >>= fun a => .ok (f a)) := by
  cases x <;> rfl

theorem ok_bind (a : α) (f : α → Except DecodeError β) : (Except.ok a >>= f) = f a := rfl

section

variable {bits a b n amount index first last : Nat} {items : List α}

theorem fit_eq (h : n < 2 ^ bits) : fit bits n = .ok n := if_pos h

theorem add_eq (h : a + b < 2 ^ bits) : add bits a b = .ok (a + b) := fit_eq h

theorem mul_eq (h : a * b < 2 ^ bits) : mul bits a b = .ok (a * b) := fit_eq h

theorem sub_eq (h : b ≤ a) : sub a b = .ok (a - b) := if_pos h

theorem div_eq (h : b ≠ 0) : div a b = .ok (a / b) := if_neg h

theorem shiftLeft_eq (hamount : amount < bits) (h : a * 2 ^ amount < 2 ^ bits) :
    shiftLeft bits a amount = .ok (a * 2 ^ amount) := by
  rw [shiftLeft, if_pos hamount, Nat.shiftLeft_eq, fit_eq h]

theorem shiftRight_eq (hamount : amount < bits) :
    shiftRight bits a amount = .ok (a / 2 ^ amount) := by
  rw [shiftRight, if_pos hamount, Nat.shiftRight_eq_div_pow]

theorem item_eq {x : α} (h : items[index]? = some x) : item items index = .ok x := by
  rw [item, h]

theorem between_eq (hfirst : first ≤ last) (hlast : last ≤ items.length) :
    between items first last = .ok ((items.drop first).take (last - first)) :=
  if_pos ⟨hfirst, hlast⟩

end

/-! Safe computations -/

/-- The first computation is the second, and comes to no fault. -/
structure Safe (checked running : Except DecodeError α) : Prop where
  same : checked = running
  faultless : ∀ e, running = .error e → e.Faultless

namespace Safe

variable {x y : Except DecodeError α}

theorem ok (a : α) : Safe (.ok a) (.ok a) := ⟨rfl, nofun⟩

theorem error {e : DecodeError} (h : e.Faultless) :
    Safe (.error e : Except DecodeError α) (.error e) := by
  refine ⟨rfl, ?_⟩
  rintro _ ⟨⟩
  exact h

theorem bind {f g : α → Except DecodeError β} (h : Safe x y)
    (hf : ∀ a, y = .ok a → Safe (f a) (g a)) :
    Safe (x >>= f) (y >>= g) := by
  obtain ⟨rfl, hx⟩ := h
  rcases x with e | a
  · exact error (hx e rfl)
  · exact hf a rfl

theorem step {f : α → Except DecodeError β} {a : α} {z : Except DecodeError β} (h : x = .ok a)
    (hf : Safe (f a) z) : Safe (x >>= f) z := by
  rw [h]
  exact hf

theorem map (f : α → β) (h : Safe x y) : Safe (x.map f) (y.map f) := by
  obtain ⟨rfl, hx⟩ := h
  rcases x with e | a
  · exact error (hx e rfl)
  · exact ok (f a)

theorem mapM {f g : α → Except DecodeError β} {as : List α} (h : ∀ a ∈ as, Safe (f a) (g a)) :
    Safe (as.mapM f) (as.mapM g) := by
  induction as with
  | nil => exact ok []
  | cons a as ih =>
    rw [List.mapM_cons, List.mapM_cons]
    refine bind (h a List.mem_cons_self) fun b _ => ?_
    exact bind (ih fun c hc => h c (List.mem_cons_of_mem a hc)) fun bs _ => ok (b :: bs)

end Safe

/-! Computations with a state -/

/-- Two runs end alike: with one answer or with one error of the kind that is expected, and with
states that are linked. -/
inductive Agree (P : ε → Prop) (S : σ → τ → Prop) :
    EStateM.Result ε σ α → EStateM.Result ε τ α → Prop where
  | ok {a : α} {s : σ} {t : τ} : S s t → Agree P S (.ok a s) (.ok a t)
  | error {e : ε} {s : σ} {t : τ} : P e → S s t → Agree P S (.error e s) (.error e t)

namespace Agree

variable {P : ε → Prop} {S S' : σ → τ → Prop}

theorem mono {P' : ε → Prop} {r : EStateM.Result ε σ α} {r' : EStateM.Result ε τ α}
    (h : Agree P S r r')
    (hP : ∀ e, P e → P' e) (hS : ∀ s t, S s t → S' s t) : Agree P' S' r r' := by
  rcases h with ⟨hs⟩ | ⟨he, hs⟩
  · exact .ok (hS _ _ hs)
  · exact .error (hP _ he) (hS _ _ hs)

theorem bind {x : EStateM ε σ α} {y : EStateM ε τ α} {f : α → EStateM ε σ β} {g : α → EStateM ε τ β}
    {s : σ} {t : τ} (h : Agree P S (x s) (y t))
    (hf : ∀ a s' t', y t = .ok a t' → S s' t' → Agree P S' (f a s') (g a t'))
    (hS : ∀ s' t', S s' t' → S' s' t') : Agree P S' ((x >>= f) s) ((y >>= g) t) := by
  change Agree P S' (EStateM.bind x f s) (EStateM.bind y g t)
  unfold EStateM.bind
  generalize x s = r at h ⊢
  generalize y t = r' at h hf ⊢
  rcases h with ⟨hs⟩ | ⟨he, hs⟩
  · exact hf _ _ _ rfl hs
  · exact .error he (hS _ _ hs)

theorem read {P : Error → Prop} {S : σ → τ → Prop} {x y : Except DecodeError α}
    {f : α → EStateM Error σ β} {g : α → EStateM Error τ β} {s : σ} {t : τ} (h : Safe x y)
    (hP : ∀ e : DecodeError, e.Faultless → P e) (hs : S s t)
    (hf : ∀ a, y = .ok a → Agree P S (f a s) (g a t)) :
    Agree P S ((liftM x >>= f) s) ((liftM y >>= g) t) := by
  obtain ⟨rfl, hx⟩ := h
  rcases x with e | a
  · exact .error (hP e (hx e rfl)) hs
  · exact hf a rfl

end Agree

/-! Reads -/

section

variable [ByteSource α] {s : α} {offset : Nat}

theorem safe_slice (h : offset < addressLimit) (count : Nat) (part : Part) :
    Safe (slice s offset count part) (slice s offset count part) := by
  unfold slice
  rw [if_pos h]
  split
  · exact .ok _
  · exact .error trivial

theorem safe_readU8 (h : offset < addressLimit) (part : Part) :
    Safe (readU8 s offset part) (readU8 s offset part) :=
  ((safe_slice h 1 part).map _).map _

theorem safe_readU16 (h : offset < addressLimit) (part : Part) :
    Safe (readU16 s offset part) (readU16 s offset part) :=
  ((safe_slice h 2 part).map _).map _

theorem safe_readU32 (h : offset < addressLimit) (part : Part) :
    Safe (readU32 s offset part) (readU32 s offset part) :=
  ((safe_slice h 4 part).map _).map _

theorem safe_readU64 (h : offset < addressLimit) (part : Part) :
    Safe (readU64 s offset part) (readU64 s offset part) :=
  ((safe_slice h 8 part).map _).map _

def number (s : α) (width offset : Nat) (part : Part) : Except DecodeError Nat := do
  let bytes ← slice s offset width part
  let digits ← (List.range width).mapM (item bytes)
  return LittleEndian.decode digits

theorem mapM_item (bytes : Bytes) : (List.range bytes.length).mapM (item bytes) = .ok bytes := by
  have hitem : ∀ index ∈ List.range bytes.length, item bytes index = .ok (bytes.getD index 0) := by
    intro index hindex
    have hlt := List.mem_range.mp hindex
    rw [List.getD_eq_getElem _ _ hlt]
    exact item_eq (List.getElem?_eq_getElem hlt)
  rw [Outcome.mapM_of_ok hitem]
  congr 1
  refine List.ext_getElem (by simp) fun index _ hlt => ?_
  rw [List.getElem_map, List.getElem_range, List.getD_eq_getElem _ _ hlt]

theorem number_eq (s : α) (width offset : Nat) (part : Part) :
    number s width offset part = readNat s width offset part := by
  unfold number readNat
  rw [slice_eq_slice_toBytes]
  rcases hslice : slice (ByteSource.toBytes s) offset width part with e | bytes
  · rfl
  · obtain ⟨hend, hbytes⟩ := slice_eq_ok_iff.mp hslice
    have hwidth : bytes.length = width := by
      rw [hbytes, List.length_take, List.length_drop]
      omega
    rw [← hwidth]
    exact congrArg (· >>= fun digits => Except.ok (LittleEndian.decode digits)) (mapM_item bytes)

end

end Machine

end Ese
