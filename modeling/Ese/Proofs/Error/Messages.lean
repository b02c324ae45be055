import Mathlib
import Ese.Proofs.Failure
import Ese.Proofs.Text.Lines
import Ese.Proofs.Tree.Failing
/-!
The messages of errors. A message is put together of words, numbers and quoted names, but for few
that have a text as it is: those a message breaks its line with, if at all. Reading pages and
entries comes to none of these, and decoding a record only to the name of a column of the table.
-/

namespace Ese

open Text

/-! Texts in messages -/

def FormatCause.texts : FormatCause → List String
  | reported text => [text]
  | _ => []

def SchemaCause.texts : SchemaCause → List String
  | noWidth column => [column]
  | reported text => [text]
  | _ => []

def DecodeError.texts : DecodeError → List String
  | format cause => cause.texts
  | schema cause => cause.texts
  | _ => []

def Error.texts : Error → List String
  | io text => [text]
  | decode e => e.texts
  | tableNotFound name => [name]
  | _ => []

section

attribute [local simp] inline_of_all isBreak

theorem FormatCause.inline_message {c : FormatCause} (h : ∀ text ∈ c.texts, Inline text) :
    Inline c.message := by
  delta message
  cases c with
  | reported text => exact h text List.mem_cons_self
  | _ => simp

theorem SchemaCause.inline_message {c : SchemaCause} (h : ∀ text ∈ c.texts, Inline text) :
    Inline c.message := by
  delta message
  cases c with
  | reported text => exact h text List.mem_cons_self
  | noWidth column => simp [h column List.mem_cons_self]
  | unknownRecordType code name => simp
  | beforeAnyTable kind name => cases kind <;> simp [MemberKind.name]

theorem Fault.inline_message (f : Fault) : Inline f.message := by
  delta message
  cases f <;> simp

theorem Part.inline_name (p : Part) : Inline p.name := by
  cases p <;> exact inline_of_all rfl

theorem DecodeError.inline_message {e : DecodeError} (h : ∀ text ∈ e.texts, Inline text) :
    Inline e.message := by
  delta message
  cases e with
  | format cause => simp [FormatCause.inline_message h]
  | schema cause => simp [SchemaCause.inline_message h]
  | truncated part offset needed available => simp [part.inline_name]
  | fault f => simp [f.inline_message]

theorem RowError.inline_message {e : RowError} (h : ∀ text ∈ e.reason.texts, Inline text) :
    Inline e.message := by
  simp [message, DecodeError.inline_message h]

theorem Error.inline_message {e : Error} (h : ∀ text ∈ e.texts, Inline text) :
    Inline e.message := by
  delta message
  cases e with
  | io text => simp [h text List.mem_cons_self]
  | decode e => exact DecodeError.inline_message h
  | tableNotFound name => simp [h name List.mem_cons_self]
  | rowErrors decoded errors => simp
  | cancelled => simp

theorem Warning.inline_message {w : Warning} (h : Inline w.column) : Inline w.message := by
  delta message
  rcases w with c | ⟨c, lid⟩ | c
  all_goals
    have hc : Inline c := h
    simp [hc]

end

/-! Reading pages and entries -/

def DecodeError.Wordless (e : DecodeError) : Prop := e.texts = []

section

open DecodeError

variable {α : Type} [ByteSource α] {s : α} {offset count width : Nat} {part : Part}

theorem fails_slice : Fails Wordless (slice s offset count part) := by
  unfold slice
  split
  · exact .ok _
  split
  · exact .error rfl
  · exact .error rfl

theorem fails_readNat : Fails Wordless (readNat s width offset part) := fails_slice.map

theorem fails_readU8 : Fails Wordless (readU8 s offset part) := fails_readNat.map

theorem fails_readU16 : Fails Wordless (readU16 s offset part) := fails_readNat.map

theorem fails_readU32 : Fails Wordless (readU32 s offset part) := fails_readNat.map

theorem Page.Header.fails_read : Fails Wordless (Page.Header.read s) :=
  fails_slice.bind fun _ =>
    fails_readU32.bind fun _ => fails_readU32.bind fun _ => fails_readU32.bind fun _ =>
    fails_readU16.bind fun _ => fails_readU16.bind fun _ => fails_readU16.bind fun _ =>
    fails_readU32.bind fun _ => .ok _

theorem TaggedValue.fails_read (layout : Layout) (index : Nat) :
    Fails Wordless (TaggedValue.read layout s index) := by
  unfold TaggedValue.read
  split
  · exact .error rfl
  · exact fails_readU16.bind fun _ => fails_readU16.bind fun _ => fails_slice.map

end

theorem File.fails_readPage (file : File) (id : PageId) :
    Fails DecodeError.Wordless (file.readPage id) := by
  unfold readPage
  dsimp only
  split
  · exact .error rfl
  · exact Page.Header.fails_read.bind fun _ => .ok _

theorem Page.fails_values (page : Page) : Fails DecodeError.Wordless page.values :=
  .mapM (TaggedValue.fails_read page.layout) _

theorem KeyHeader.fails_read (v : TaggedValue) : Fails DecodeError.Wordless (KeyHeader.read v) := by
  unfold read
  split
  · exact fails_readU16.bind fun _ => fails_readU16.bind fun _ => .ok _
  · exact fails_readU16.bind fun _ => .ok _

theorem BranchEntry.fails_parse (v : TaggedValue) :
    Fails DecodeError.Wordless (BranchEntry.parse v) :=
  (KeyHeader.fails_read v).bind fun _ => fails_slice.bind fun _ =>
    fails_readU32.bind fun _ => .ok _

theorem Tree.Leaf.fails_split (l : Leaf) : Fails DecodeError.Wordless l.split :=
  ((KeyHeader.fails_read l.value).bind fun _ => .ok _).bind fun _ => .ok _

/-- The error is about the bytes of the file, and its message has no text as it is. -/
def Error.Wordless (e : Error) : Prop := ∃ d : DecodeError, e = .decode d ∧ d.Wordless

theorem Tree.pagesFail_wordless (file : File) : PagesFail file Error.Wordless where
  page id := (file.fails_readPage id).mono fun d hd => ⟨d, rfl, hd⟩
  values page := page.fails_values.mono fun d hd => ⟨d, rfl, hd⟩
  branch v := (BranchEntry.fails_parse v).mono fun d hd => ⟨d, rfl, hd⟩
  deep _ := ⟨_, rfl, rfl⟩
  endless _ := ⟨_, rfl, rfl⟩

theorem LongValues.failsFrom_load (file : File) (trace : Trace.Switches) (table : Table) :
    FailsFrom Error.Wordless (load file trace table) := by
  have hleaf : ∀ l, FailsFrom Error.Wordless (onLeaf trace table l) := by
    intro l
    have hsplit : Fails (Error.Wordless ∘ .decode) l.split :=
      l.fails_split.mono fun d hd => ⟨d, rfl, hd⟩
    exact (FailsFrom.lift hsplit).bind fun _ => (Tree.failsFrom_logIf _ _).bind fun _ =>
      .of_total fun _ => ⟨(), _, rfl⟩
  intro log e log' he
  let visitor := Tree.Visitor.ofFile file trace (onLeaf trace table)
  have hsurvey : FailsFrom Error.Wordless (visitor.survey (table.longValues.map (·.root))) :=
    (Tree.pagesFail_wordless file).survey hleaf _
  unfold load at he
  dsimp only at he
  split at he
  · cases he
  · rename_i e' j hs
    cases he
    exact hsurvey _ e j hs

end Ese
