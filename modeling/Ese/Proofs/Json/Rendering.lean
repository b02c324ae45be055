import Mathlib
import Ese.Proofs.Text.Lines
import Ese.Row
/-!
JSON on one line. Line breaks inside of strings are escaped and there is no blank between the parts,
so JSON breaks a line only where a number does; the numbers of rows do not.
-/

namespace Ese

open Text

/-! Decimals -/

namespace Decimal

theorem unbroken_digits (n : Nat) : Unbroken (Nat.toDigits 10 n) :=
  unbroken_toDigits (by decide) (by decide) n

theorem unbroken_zeros (n : Nat) : Unbroken (zeros n) := unbroken_replicate rfl

theorem unbroken_renderPositional (keepsPoint : Bool) (s : Shortest) :
    Unbroken (renderPositional keepsPoint s) := by
  have hdigits := unbroken_digits s.digits
  unfold renderPositional
  dsimp only
  split
  · have hpoint : Unbroken (if keepsPoint then ['.', '0'] else []) := by
      cases keepsPoint <;> simp [isBreak]
    exact unbroken_append.mpr ⟨unbroken_append.mpr ⟨hdigits, unbroken_zeros _⟩, hpoint⟩
  split
  · exact unbroken_append.mpr ⟨hdigits.sublist (List.take_sublist _ _),
      unbroken_cons.mpr ⟨rfl, hdigits.sublist (List.drop_sublist _ _)⟩⟩
  · exact unbroken_cons.mpr ⟨rfl, unbroken_cons.mpr
      ⟨rfl, unbroken_append.mpr ⟨unbroken_zeros _, hdigits⟩⟩⟩

theorem unbroken_renderScientific (s : Shortest) (leading : Int) :
    Unbroken (renderScientific s leading) := by
  have hdigits := unbroken_digits s.digits
  have hpower :
      Unbroken ((if leading < 0 then '-' else '+') :: Nat.toDigits 10 leading.natAbs) := by
    refine unbroken_cons.mpr ⟨?_, unbroken_digits _⟩
    split <;> rfl
  unfold renderScientific
  dsimp only
  split
  · exact unbroken_nil
  · rename_i d h
    rw [h] at hdigits
    exact unbroken_cons.mpr ⟨hdigits d List.mem_cons_self, unbroken_cons.mpr ⟨rfl, hpower⟩⟩
  · rename_i d rest _ h
    rw [h] at hdigits
    obtain ⟨hd, hrest⟩ := unbroken_cons.mp hdigits
    exact unbroken_cons.mpr ⟨hd, unbroken_cons.mpr
      ⟨rfl, unbroken_append.mpr ⟨hrest, unbroken_cons.mpr ⟨rfl, hpower⟩⟩⟩⟩

theorem unbroken_renderFinite (style : Style) (b : Binary) : Unbroken (renderFinite style b) := by
  unfold renderFinite
  dsimp only
  split
  · exact unbroken_renderPositional _ _
  · exact unbroken_renderScientific _ _

structure Style.Inline (style : Style) : Prop where
  nan : Text.Inline style.nan
  infinite : Text.Inline style.infinite
  negativeInfinite : Text.Inline style.negativeInfinite

theorem inline_render {style : Style} (h : style.Inline) (bits : UInt64) :
    Inline (render style bits) := by
  have hsigned : ∀ text, Unbroken text →
      Inline (String.ofList (if isNegative bits then '-' :: text else text)) := by
    intro text htext
    rw [inline_ofList]
    split
    · exact unbroken_cons.mpr ⟨rfl, htext⟩
    · exact htext
  unfold render
  dsimp only
  split
  · exact h.nan
  · split
    · exact h.negativeInfinite
    · exact h.infinite
  · refine hsigned _ ?_
    split <;> simp [isBreak]
  · exact hsigned _ (unbroken_renderFinite style _)

theorem inline_jsonStyle : jsonStyle.Inline := by
  constructor <;> exact inline_of_all rfl

end Decimal

/-! JSON -/

namespace Json

theorem unbroken_escape (c : Char) : Unbroken (escape c) := by
  unfold escape
  split_ifs with hquote hslash hbackspace hfeed hnewline hreturn
  iterate 7 simp [isBreak]
  · simp [isBreak, unbroken_padded]
  · simp [isBreak, hnewline, hreturn]

theorem inline_quote (s : String) : Inline (quote s) := by
  rw [quote, inline_ofList, unbroken_append, unbroken_append]
  exact ⟨⟨by simp [isBreak], unbroken_flatMap fun c _ => unbroken_escape c⟩, by simp [isBreak]⟩

mutual

def NumbersInline : Json → Prop
  | null | bool _ | string _ => True
  | number text => Inline text
  | array items => ItemsInline items
  | object fields => FieldsInline fields

def ItemsInline : List Json → Prop
  | [] => True
  | item :: items => NumbersInline item ∧ ItemsInline items

def FieldsInline : List (String × Json) → Prop
  | [] => True
  | (_, value) :: fields => NumbersInline value ∧ FieldsInline fields

end

mutual

theorem inline_render : (j : Json) → j.NumbersInline → Inline j.render
  | null, _ => by
    rw [render]
    exact inline_of_all rfl
  | bool true, _ => by
    rw [render]
    exact inline_of_all rfl
  | bool false, _ => by
    rw [render]
    exact inline_of_all rfl
  | number text, h => by
    rw [render]
    rwa [NumbersInline] at h
  | string text, _ => by
    rw [render]
    exact inline_quote text
  | array items, h => by
    rw [NumbersInline] at h
    rw [render, inline_append, inline_append]
    exact ⟨⟨inline_of_all rfl, inline_intercalate (inline_of_all rfl) (inline_renderItems items h)⟩,
      inline_of_all rfl⟩
  | object fields, h => by
    rw [NumbersInline] at h
    rw [render, inline_append, inline_append]
    exact ⟨⟨inline_of_all rfl,
      inline_intercalate (inline_of_all rfl) (inline_renderFields fields h)⟩,
      inline_of_all rfl⟩

theorem inline_renderItems : (items : List Json) → ItemsInline items →
    ∀ text ∈ renderItems items, Inline text
  | [], _ => by
    rw [renderItems]
    exact nofun
  | item :: items, h => by
    rw [ItemsInline] at h
    rw [renderItems]
    exact List.forall_mem_cons.mpr ⟨inline_render item h.1, inline_renderItems items h.2⟩

theorem inline_renderFields : (fields : List (String × Json)) → FieldsInline fields →
    ∀ text ∈ renderFields fields, Inline text
  | [], _ => by
    rw [renderFields]
    exact nofun
  | (name, value) :: fields, h => by
    rw [FieldsInline] at h
    rw [renderFields]
    refine List.forall_mem_cons.mpr ⟨?_, inline_renderFields fields h.2⟩
    rw [inline_append, inline_append]
    exact ⟨⟨inline_quote name, inline_of_all rfl⟩, inline_render value h.1⟩

end

end Json

/-! Rows -/

theorem Value.numbersInline (v : Value) : v.toJson.NumbersInline := by
  cases v with
  | int i =>
    rw [toJson, Json.NumbersInline]
    exact inline_int i.toInt
  | float bits =>
    rw [toJson, Json.NumbersInline]
    exact Decimal.inline_render Decimal.inline_jsonStyle bits
  | bool b | string s | bytes b =>
    rw [toJson, Json.NumbersInline]
    trivial

/-- Whatever its names and texts are, a row is one line of JSON. -/
theorem Row.inline_toJson (row : Row) : Inline row.toJson.render := by
  have hfields : ∀ columns : List (String × Value),
      Json.FieldsInline (columns.map fun c => (c.1, c.2.toJson)) := by
    intro columns
    induction columns with
    | nil =>
      rw [List.map_nil, Json.FieldsInline]
      trivial
    | cons c columns ih =>
      rw [List.map_cons, Json.FieldsInline]
      exact ⟨c.2.numbersInline, ih⟩
  refine Json.inline_render _ ?_
  rw [toJson, Json.NumbersInline]
  exact hfields row.columns

end Ese
