import Mathlib
import Ese.Record.Basic
import Ese.Run
/-!
Computations that fail, and how: what is true of each error that a step can end in is true of each
error of the whole.
-/

namespace Ese

variable {ε σ α β : Type}

def Fails (P : ε → Prop) (x : Except ε α) : Prop := ∀ e, x = .error e → P e

namespace Fails

variable {P Q : ε → Prop} {x : Except ε α}

theorem ok (a : α) : Fails P (.ok a : Except ε α) := nofun

theorem error {e : ε} (h : P e) : Fails P (.error e : Except ε α) := by
  rintro _ ⟨⟩
  exact h

theorem mono (h : Fails P x) (hPQ : ∀ e, P e → Q e) : Fails Q x := fun e he => hPQ e (h e he)

theorem bind {f : α → Except ε β} (h : Fails P x) (hf : ∀ a, Fails P (f a)) :
    Fails P (x >>= f) := by
  rcases x with e | a
  · exact error (h e rfl)
  · exact hf a

theorem map {f : α → β} (h : Fails P x) : Fails P (x.map f) := by
  rcases x with e | a
  · exact error (h e rfl)
  · exact ok (f a)

theorem mapM {f : α → Except ε β} (h : ∀ a, Fails P (f a)) (as : List α) : Fails P (as.mapM f) := by
  induction as with
  | nil => exact ok []
  | cons a as ih =>
    rw [List.mapM_cons]
    exact (h a).bind fun b => ih.bind fun bs => ok (b :: bs)

end Fails

/-- All errors of the computation are of this kind, wherever it starts. -/
def FailsFrom (P : ε → Prop) (d : EStateM ε σ α) : Prop := ∀ s e s', d s = .error e s' → P e

namespace FailsFrom

variable {P Q : ε → Prop}

theorem pure (a : α) : FailsFrom P (pure a : EStateM ε σ α) := nofun

theorem throw {e : ε} (h : P e) : FailsFrom P (throw e : EStateM ε σ α) := by
  rintro _ _ _ ⟨⟩
  exact h

theorem of_total {d : EStateM ε σ α} (h : ∀ s, ∃ a s', d s = .ok a s') : FailsFrom P d := by
  intro s e s' he
  obtain ⟨a, t, ha⟩ := h s
  cases ha.symm.trans he

theorem bind {d : EStateM ε σ α} {f : α → EStateM ε σ β} (h : FailsFrom P d)
    (hf : ∀ a, FailsFrom P (f a)) : FailsFrom P (d >>= f) := by
  intro s e s' he
  change EStateM.bind d f s = _ at he
  unfold EStateM.bind at he
  rcases hd : d s with ⟨a, t⟩ | ⟨e', t⟩
  · rw [hd] at he
    exact hf a t e s' he
  · rw [hd] at he
    cases he
    exact h s e s' hd

theorem liftDecode {P : DecodeError → Prop} {x : Except DecodeError α} (h : Fails P x) :
    FailsFrom P (liftM x : Record.Decode α) := by
  rcases x with e | a
  · exact throw (h e rfl)
  · exact pure a

theorem lift {P : Error → Prop} {x : Except DecodeError α} (h : Fails (P ∘ .decode) x) :
    FailsFrom P (liftM x : EStateM Error σ α) := by
  rcases x with e | a
  · exact throw (h e rfl)
  · exact pure a

end FailsFrom

end Ese
