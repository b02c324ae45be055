import Mathlib
import Ese.Proofs.Bytes.Field
import Ese.Proofs.Catalog.Listing
import Ese.Proofs.Keyed
import Ese.Proofs.Machine.Operations
/-!
The catalog with checked operations. The tables are in an array and found through a map from names
to places; every place that is looked up in the array has to be in it. It is because the map holds
exactly the places of the tables, under their names, and the array never shrinks.
-/

namespace Ese.Machine

/-! Catalog records -/

def directoryLength (lastVariable : Nat) : Except DecodeError Nat :=
  if lastVariable > 127 then sub lastVariable 127 else return lastVariable

def itemName (record : Bytes) : Except DecodeError String := do
  let lastVariable ← readU8 record 1 .catalogRecord
  let offset ← readU16 record 2 .catalogRecord
  let count ← directoryLength lastVariable.toNat
  let raw ← readU16 record offset.toNat .catalogItemName
  let length ← mul 64 2 count
  let start ← add 64 offset.toNat length
  let bytes ← slice record start (raw &&& 0x7FFF).toNat .catalogItemName
  return Text.decodeCodePage bytes 1252

def readFields (record : Bytes) : Except DecodeError Catalog.Fields := do
  return {
    objectId := ← readU32 record 4 .catalogRecord
    kind := ← readU16 record 8 .catalogRecord
    identifier := ← readU32 record 10 .catalogRecord
    typeOrRoot := ← readU32 record 14 .catalogRecord
    width := ← readU32 record 18 .catalogRecord
    flags := ← readU32 record 22 .catalogRecord
    codePageOrLocale := ← readU32 record 26 .catalogRecord
    name := ← itemName record }

def decodeEntry (record : Bytes) : Except DecodeError Catalog.Entry := do
  (← readFields record).entry

theorem safe_itemName (record : Bytes) : Safe (itemName record) (Catalog.itemName record) := by
  unfold itemName Catalog.itemName
  refine (safe_readU8 (by decide) _).bind fun lastVariable _ => ?_
  refine (safe_readU16 (by decide) _).bind fun offset _ => ?_
  have hlast := lastVariable.toNat_lt
  have hoffset := offset.toNat_lt
  have hcount : directoryLength lastVariable.toNat =
      .ok (Catalog.directoryLength lastVariable.toNat) := by
    unfold directoryLength Catalog.directoryLength
    split
    · exact sub_eq (by omega)
    · rfl
  have hsmall : Catalog.directoryLength lastVariable.toNat < 2 ^ 8 := by
    unfold Catalog.directoryLength
    split <;> omega
  have hstart : offset.toNat + 2 * Catalog.directoryLength lastVariable.toNat < addressLimit := by
    unfold addressLimit
    omega
  refine .step hcount ?_
  refine (safe_readU16 (hoffset.trans (by decide)) _).bind fun raw _ => ?_
  refine .step (mul_eq (by omega)) (.step (add_eq hstart) ?_)
  exact (safe_slice hstart _ _).bind fun bytes _ => .ok _

theorem safe_decodeEntry (record : Bytes) :
    Safe (decodeEntry record) (Catalog.Entry.decode record) := by
  have hfields : Safe (readFields record) (Catalog.Fields.read record) := by
    refine (safe_readU32 (by decide) _).bind fun _ _ => ?_
    refine (safe_readU16 (by decide) _).bind fun _ _ => ?_
    refine (safe_readU32 (by decide) _).bind fun _ _ => ?_
    refine (safe_readU32 (by decide) _).bind fun _ _ => ?_
    refine (safe_readU32 (by decide) _).bind fun _ _ => ?_
    refine (safe_readU32 (by decide) _).bind fun _ _ => ?_
    refine (safe_readU32 (by decide) _).bind fun _ _ => ?_
    exact (safe_itemName record).bind fun _ _ => .ok _
  refine hfields.bind fun fields _ => ⟨rfl, ?_⟩
  unfold Catalog.Fields.entry
  rintro e he
  iterate 5
    split at he
    · cases he
  cases he
  trivial

/-! Tables and their places -/

def put {α : Type} (items : List α) (place : Nat) (x : α) : Except DecodeError (List α) :=
  if place < items.length then .ok (items.set place x)
  else .error (.fault (.outside place items.length))

/-- The tables so far, their places by their names, and the place of the one that is open. -/
structure Builder where
  tables : List Table := []
  places : Std.HashMap String Nat := {}
  current : Option Nat := none

structure Catalog where
  tables : List Table
  places : Std.HashMap String Nat

namespace Builder

def openTable (b : Builder) (t : Table) : Except DecodeError Builder :=
  match b.places[t.name]? with
  | some place => do
    let tables ← put b.tables place t
    return { b with tables, current := some place }
  | none => do
    let tables := b.tables ++ [t]
    let place ← sub tables.length 1
    return { tables, places := b.places.insert t.name place, current := some place }

def updateCurrent (b : Builder) (kind : MemberKind) (name : String) (f : Table → Table) :
    Except DecodeError Builder :=
  match b.current with
  | some place => do
    let t ← item b.tables place
    let tables ← put b.tables place (f t)
    return { b with tables }
  | none => .error (.schema (.beforeAnyTable kind name))

def push (b : Builder) : Catalog.Entry → Except DecodeError Builder
  | .table name objectId root => b.openTable { name, objectId, root }
  | .column _ c => b.updateCurrent .column c.name (·.addColumn c)
  | .index _ i => b.updateCurrent .index i.name (·.addIndex i)
  | .longValue _ s => b.updateCurrent .longValue s.name (·.addLongValue s)
  | .callback _ => return b

def remarks (b : Builder) : Catalog.Entry → List Trace.Event
  | .table name _ _ => if b.places.contains name then [.tableListedTwice name] else []
  | .callback name => [.callbackSkipped name]
  | _ => []

def finish (b : Builder) : Machine.Catalog := ⟨b.tables, b.places⟩

/-- The builder without places. -/
def plain (b : Builder) : Catalog.Builder where
  tables := b.tables
  current := b.current.bind fun place => b.tables[place]?.map Table.name

/-- The map holds the places of the tables under their names, and no others. -/
structure Sound (b : Builder) : Prop where
  places : ∀ name place, b.places[name]? = some place ↔ b.tables[place]?.map Table.name = some name
  current : ∀ place, b.current = some place → place < b.tables.length

section

variable {b : Builder} {t u : Table} {place : Nat}

theorem put_eq {α : Type} {items : List α} {x : α} (h : place < items.length) :
    put items place x = .ok (items.set place x) := if_pos h

theorem Sound.empty : Sound {} := ⟨by simp, nofun⟩

theorem Sound.place_unique (h : b.Sound) {i j : Nat} (hi : b.tables[i]? = some t)
    (hj : b.tables[j]? = some u) (hname : t.name = u.name) : i = j := by
  have hfirst := (h.places t.name i).mpr (by rw [hi]; rfl)
  have hsecond := (h.places t.name j).mpr (by rw [hj, hname]; rfl)
  exact Option.some.inj (hfirst.symm.trans hsecond)

theorem Sound.nodup (h : b.Sound) : (b.tables.map (·.name)).Nodup := by
  refine List.pairwise_iff_getElem.mpr fun i j hi hj hij hname => ?_
  rw [List.length_map] at hi hj
  rw [List.getElem_map, List.getElem_map] at hname
  exact hij.ne (h.place_unique (List.getElem?_eq_getElem hi) (List.getElem?_eq_getElem hj) hname)

theorem Sound.name_ne (h : b.Sound) {name : String} (hnone : b.places[name]? = none) :
    ∀ u ∈ b.tables, u.name ≠ name := by
  rintro u hu rfl
  obtain ⟨place, hplace⟩ := List.mem_iff_getElem?.mp hu
  have hfound := (h.places u.name place).mpr (by rw [hplace]; rfl)
  rw [hnone] at hfound
  cases hfound

/-- The first table of a name gives way. -/
theorem place_eq_set {tables : List Table} (hu : tables[place]? = some u) (hname : u.name = t.name)
    (hunique : ∀ i v, tables[i]? = some v → v.name = t.name → i = place) :
    Catalog.Builder.place t tables = tables.set place t := by
  induction tables generalizing place with
  | nil => cases hu
  | cons v rest ih =>
    rw [Catalog.Builder.place]
    split
    · rename_i hv
      obtain rfl := hunique 0 v rfl hv
      rfl
    · rename_i hv
      rcases place with _ | place
      · cases hu
        exact absurd hname hv
      · rw [List.set_cons_succ, ih hu fun i w hw hwname => ?_]
        exact Nat.succ.inj (hunique (i + 1) w hw hwname)

/-- Changing the tables of one name is changing the one that has it. -/
theorem map_eq_set (h : b.Sound) (hu : b.tables[place]? = some u) (f : Table → Table) :
    (b.tables.map fun t => if t.name = u.name then f t else t) = b.tables.set place (f u) := by
  refine List.ext_getElem? fun i => ?_
  rw [List.getElem?_map, List.getElem?_set]
  split
  · rename_i heq
    subst heq
    have hin := (List.getElem?_eq_some_iff.mp hu).1
    rw [hu, if_pos hin]
    simp
  · rename_i hne
    rcases hi : b.tables[i]? with _ | t
    · rfl
    · have hname : t.name ≠ u.name := fun hname => hne (h.place_unique hu hi hname.symm)
      simp [hname]

theorem Sound.set (h : b.Sound) (hu : b.tables[place]? = some u) (hname : t.name = u.name)
    (current : Option Nat) (hcurrent : ∀ i, current = some i → i < b.tables.length) :
    Sound { b with tables := b.tables.set place t, current } := by
  refine ⟨fun name i => ?_, fun i hi => ?_⟩
  · refine (h.places name i).trans ?_
    have hsame : (b.tables.set place t)[i]?.map Table.name = b.tables[i]?.map Table.name := by
      rw [List.getElem?_set]
      split
      · rename_i heq
        subst heq
        have hin := (List.getElem?_eq_some_iff.mp hu).1
        rw [hu, if_pos hin]
        exact congrArg some hname
      · rfl
    rw [hsame]
  · rw [List.length_set]
    exact hcurrent i hi

theorem Sound.append (h : b.Sound) (hnew : b.places[t.name]? = none) :
    Sound {
      tables := b.tables ++ [t]
      places := b.places.insert t.name b.tables.length
      current := some b.tables.length } := by
  refine ⟨fun name i => ?_, fun i hi => ?_⟩
  · rw [Std.HashMap.getElem?_insert]
    rcases lt_trichotomy i b.tables.length with hlt | rfl | hgt
    · rw [List.getElem?_append_left hlt, ← h.places]
      split
      · rename_i hname
        rw [← eq_of_beq hname, hnew]
        exact iff_of_false (fun heq => hlt.ne (Option.some.inj heq).symm) nofun
      · rfl
    · rw [List.getElem?_concat_length]
      split
      · rename_i hname
        exact iff_of_true rfl (congrArg some (eq_of_beq hname))
      · rename_i hname
        refine iff_of_false (fun hplace => ?_) fun heq =>
          hname (beq_iff_eq.mpr (Option.some.inj heq))
        rw [h.places, List.getElem?_eq_none le_rfl] at hplace
        cases hplace
    · have hbeyond : (b.tables ++ [t])[i]? = none :=
        List.getElem?_eq_none (by rw [List.length_append]; exact hgt)
      rw [hbeyond]
      split
      · exact iff_of_false (fun heq => hgt.ne (Option.some.inj heq)) nofun
      · rw [h.places, List.getElem?_eq_none hgt.le]
  · obtain rfl := Option.some.inj hi
    rw [List.length_append]
    exact Nat.lt_succ_self _

inductive Simulates : Except DecodeError Builder → Except DecodeError Catalog.Builder → Prop where
  | ok {b : Builder} : b.Sound → Simulates (.ok b) (.ok b.plain)
  | error {e : DecodeError} : e.Faultless → Simulates (.error e) (.error e)

theorem simulates_openTable (h : b.Sound) (t : Table) :
    Simulates (b.openTable t) (.ok (b.plain.openTable t)) := by
  unfold openTable
  rcases hplace : b.places[t.name]? with _ | place
  · have htable : b.plain.openTable t = plain {
        tables := b.tables ++ [t]
        places := b.places.insert t.name b.tables.length
        current := some b.tables.length } := by
      unfold Catalog.Builder.openTable plain
      dsimp only
      rw [Catalog.place_new (h.name_ne hplace), Option.bind_some, List.getElem?_concat_length]
      rfl
    have hlast : sub (b.tables ++ [t]).length 1 = .ok b.tables.length := by
      rw [List.length_append]
      exact sub_eq (Nat.le_add_left 1 _)
    dsimp only
    rw [hlast, htable]
    exact .ok (h.append hplace)
  · obtain ⟨u, hu, hname⟩ := Option.map_eq_some_iff.mp ((h.places t.name place).mp hplace)
    have hin := (List.getElem?_eq_some_iff.mp hu).1
    have htable : b.plain.openTable t =
        plain { b with tables := b.tables.set place t, current := some place } := by
      unfold Catalog.Builder.openTable plain
      dsimp only
      rw [place_eq_set hu hname fun i v hv hvname => h.place_unique hv hu (hvname.trans hname.symm),
        Option.bind_some, List.getElem?_set_self hin]
      rfl
    dsimp only
    rw [put_eq hin, htable]
    refine .ok (h.set hu hname.symm _ fun i hi => ?_)
    rwa [← Option.some.inj hi]

theorem simulates_updateCurrent (h : b.Sound) (kind : MemberKind) (name : String)
    {f : Table → Table} (hf : ∀ t, (f t).name = t.name) :
    Simulates (b.updateCurrent kind name f) (b.plain.updateCurrent kind name f) := by
  unfold updateCurrent Catalog.Builder.updateCurrent plain
  rcases hcurrent : b.current with _ | place
  · exact .error trivial
  · have hin := h.current place hcurrent
    have hu := List.getElem?_eq_getElem hin
    have htable : plain { b with tables := b.tables.set place (f b.tables[place]) } =
        ⟨b.tables.map fun t => if t.name = b.tables[place].name then f t else t,
          some b.tables[place].name⟩ := by
      unfold plain
      dsimp only
      rw [map_eq_set h hu, hcurrent, Option.bind_some, List.getElem?_set_self hin]
      exact congrArg (Catalog.Builder.mk _ ∘ some) (hf _)
    rw [hcurrent] at htable
    dsimp only
    rw [Option.bind_some, hu, item_eq hu, ok_bind, put_eq hin, Option.map_some]
    dsimp only
    rw [← htable]
    exact .ok (h.set hu (hf _) _ fun i hi => h.current i (hcurrent.trans hi))

theorem simulates_push (h : b.Sound) (e : Catalog.Entry) :
    Simulates (b.push e) (b.plain.push e) := by
  rcases e with ⟨name, objectId, root⟩ | ⟨_, c⟩ | ⟨_, i⟩ | ⟨_, s⟩ | _
  · exact simulates_openTable h _
  · exact simulates_updateCurrent h _ _ fun _ => rfl
  · exact simulates_updateCurrent h _ _ fun _ => rfl
  · exact simulates_updateCurrent h _ _ fun _ => rfl
  · exact .ok h

theorem remarks_plain (h : b.Sound) (e : Catalog.Entry) : b.remarks e = b.plain.remarks e := by
  rcases e with ⟨name, objectId, root⟩ | _ | _ | _ | _
  · have hlisted : b.places.contains name = b.tables.any (·.name = name) := by
      rw [Std.HashMap.contains_eq_isSome_getElem?, Bool.eq_iff_iff, List.any_eq_true]
      rcases hplace : b.places[name]? with _ | place
      · refine iff_of_false nofun ?_
        rintro ⟨u, hu, hname⟩
        exact h.name_ne hplace u hu (of_decide_eq_true hname)
      · obtain ⟨u, hu, hname⟩ := Option.map_eq_some_iff.mp ((h.places name place).mp hplace)
        exact iff_of_true rfl ⟨u, List.mem_of_getElem? hu, decide_eq_true hname⟩
    unfold remarks Catalog.Builder.remarks plain
    dsimp only
    rw [hlisted]
  all_goals rfl

end

end Builder

namespace Catalog

def table? (c : Machine.Catalog) (name : String) : Except DecodeError (Option Table) :=
  match c.places[name]? with
  | some place => do
    let t ← item c.tables place
    return some t
  | none => return none

def plain (c : Machine.Catalog) : Ese.Catalog := ⟨c.tables⟩

theorem table?_eq {b : Builder} (h : b.Sound) (name : String) :
    b.finish.table? name = .ok (b.plain.finish.table? name) := by
  unfold table? Ese.Catalog.table? Builder.finish Catalog.Builder.finish Builder.plain
  dsimp only
  rcases hplace : b.places[name]? with _ | place
  · have hnone : b.tables.find? (fun t => t.name = name) = none := by
      refine List.find?_eq_none.mpr fun t ht => ?_
      simpa using h.name_ne hplace t ht
    rw [hnone]
    rfl
  · obtain ⟨t, ht, rfl⟩ := Option.map_eq_some_iff.mp ((h.places name place).mp hplace)
    rw [Keyed.find?_eq h.nodup (List.mem_of_getElem? ht)]
    dsimp only
    rw [item_eq ht]
    rfl

end Catalog

end Ese.Machine
