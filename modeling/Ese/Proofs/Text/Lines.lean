import Mathlib
import Ese.Text.Quoted
/-!
Texts on one line. Numbers and quoted names never break a line, so a text that is put together of
them breaks one only where it has a text as it is. Lines that do not break can be told apart again
when they are printed one behind the other.
-/

namespace Ese.Text

def isBreak (c : Char) : Bool := c = '\n' || c = '\r'

def Unbroken (cs : List Char) : Prop := ∀ c ∈ cs, isBreak c = false

def Inline (s : String) : Prop := Unbroken s.toList

/-! Characters -/

section

variable {a b cs : List Char}

@[simp] theorem unbroken_nil : Unbroken [] := nofun

@[simp] theorem unbroken_cons {c : Char} : Unbroken (c :: cs) ↔ isBreak c = false ∧ Unbroken cs :=
  List.forall_mem_cons

@[simp] theorem unbroken_append : Unbroken (a ++ b) ↔ Unbroken a ∧ Unbroken b :=
  List.forall_mem_append

theorem Unbroken.sublist (h : Unbroken b) (hab : a.Sublist b) : Unbroken a :=
  fun c hc => h c (hab.subset hc)

theorem unbroken_replicate {n : Nat} {c : Char} (h : isBreak c = false) :
    Unbroken (List.replicate n c) := by
  intro d hd
  rwa [List.eq_of_mem_replicate hd]

theorem unbroken_flatMap {α : Type} {f : α → List Char} {xs : List α}
    (h : ∀ x ∈ xs, Unbroken (f x)) : Unbroken (xs.flatMap f) := by
  intro c hc
  obtain ⟨x, hx, hc⟩ := List.mem_flatMap.mp hc
  exact h x hx c hc

theorem isBreak_digitChar : ∀ n < 16, isBreak n.digitChar = false := by decide

theorem unbroken_toDigits {base : Nat} (hbase : 1 < base) (hletters : base ≤ 16) (n : Nat) :
    Unbroken (Nat.toDigits base n) := by
  induction n using Nat.strong_induction_on with
  | h n ih =>
    rw [Nat.toDigits_eq_if hbase]
    split
    · rename_i hdigit
      simp [isBreak_digitChar n (by omega)]
    · have hsmaller : n / base < n := Nat.div_lt_self (by omega) hbase
      have hdigit : n % base < base := Nat.mod_lt n (by omega)
      simp [isBreak_digitChar _ (hdigit.trans_le hletters), ih _ hsmaller]

theorem unbroken_padded (width n : Nat) : Unbroken (Hex.padded width n) := by
  rw [Hex.padded, Hex.padLeft, unbroken_append]
  exact ⟨unbroken_replicate rfl, unbroken_toDigits (by decide) le_rfl n⟩

end

/-! Texts -/

section

variable {s t : String}

@[simp] theorem inline_ofList {cs : List Char} : Inline (String.ofList cs) ↔ Unbroken cs := by
  rw [Inline, String.toList_ofList]

@[simp] theorem inline_append : Inline (s ++ t) ↔ Inline s ∧ Inline t := by
  rw [Inline, String.toList_append, unbroken_append]
  rfl

@[simp] theorem inline_toString : Inline (toString s) ↔ Inline s := Iff.rfl

theorem inline_of_all (h : (s.toList.all fun c => !isBreak c) = true) : Inline s := by
  intro c hc
  simpa using List.all_eq_true.mp h c hc

@[simp] theorem inline_repr (n : Nat) : Inline n.repr := by
  rw [Inline, Nat.toList_repr]
  exact unbroken_toDigits (by decide) (by decide) n

@[simp] theorem inline_int (i : Int) : Inline (toString i) := by
  cases i with
  | ofNat n => exact inline_repr n
  | negSucc n =>
    have hminus : Inline "-" := inline_of_all rfl
    exact inline_append.mpr ⟨hminus, inline_repr (n + 1)⟩

@[simp] theorem inline_word (w : UInt32) : Inline (Hex.word w) := by
  have hfront : Inline "0x" := inline_of_all rfl
  exact inline_append.mpr ⟨hfront, inline_ofList.mpr (unbroken_padded 8 w.toNat)⟩

@[simp] theorem inline_ofBytes (bytes : List UInt8) : Inline (Hex.ofBytes bytes) :=
  inline_ofList.mpr (unbroken_flatMap fun b _ => unbroken_padded 2 b.toNat)

@[simp] theorem inline_quoted (name : String) : Inline (Quoted.encode name) := by
  have hescape : ∀ c, Unbroken (Quoted.escape c) := by
    intro c
    unfold Quoted.escape
    split_ifs with h₀ htab hnewline hreturn
    iterate 6 simp [isBreak]
    · simp [isBreak, Hex.ofNat, unbroken_toDigits]
    · simp [isBreak, hnewline, hreturn]
  rw [Quoted.encode, inline_ofList, unbroken_append, unbroken_append]
  exact ⟨⟨by simp [isBreak], unbroken_flatMap fun c _ => hescape c⟩, by simp [isBreak]⟩

theorem inline_intercalate {ts : List String} (hs : Inline s) (h : ∀ t ∈ ts, Inline t) :
    Inline (s.intercalate ts) := by
  rw [Inline, String.toList_intercalate]
  induction ts with
  | nil => simp
  | cons t ts ih =>
    have ht := h t List.mem_cons_self
    have hrest := ih fun u hu => h u (List.mem_cons_of_mem t hu)
    rcases ts with _ | ⟨u, ts⟩
    · rwa [List.map_singleton, List.intercalate_singleton]
    · rw [List.map_cons, List.map_cons, List.intercalate_cons_cons, ← List.map_cons]
      exact unbroken_append.mpr ⟨unbroken_append.mpr ⟨ht, hs⟩, hrest⟩

end

/-! Printed lines -/

def printed (lines : List String) : String := String.join (lines.map (· ++ "\n"))

/-- The lines of a text; what follows the last line end is none. -/
def linesOf (text : String) : List String :=
  (text.toList.splitOn '\n').dropLast.map String.ofList

/-- Lines that do not break are what they are printed as. -/
theorem linesOf_printed {lines : List String} (h : ∀ line ∈ lines, Inline line) :
    linesOf (printed lines) = lines := by
  have hsplit : (printed lines).toList.splitOn '\n' = lines.map String.toList ++ [[]] := by
    unfold printed
    rw [String.toList_join]
    induction lines with
    | nil => simp
    | cons line lines ih =>
      have hline : '\n' ∉ line.toList := fun hc =>
        absurd (h line List.mem_cons_self '\n' hc) (by decide)
      rw [List.map_cons, List.flatMap_cons, String.toList_append,
        show "\n".toList = ['\n'] from rfl, List.append_assoc, List.singleton_append,
        List.splitOn_append_cons_self_of_not_mem hline,
        ih fun l hl => h l (List.mem_cons_of_mem line hl)]
      rfl
  rw [linesOf, hsplit, List.dropLast_concat, List.map_map]
  simp

end Ese.Text
