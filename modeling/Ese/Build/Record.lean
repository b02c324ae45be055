import Ese.Bytes.Source
import Ese.Layout
/-!
Records under construction. Fixed columns get the ids from 1 on and variable columns those from 128
on, in the order in which they are added; tagged columns bring their ids.
-/

namespace Ese.Build

structure FixedField where
  data : Bytes
  isNull : Bool := false
  deriving DecidableEq, Repr

structure TaggedField where
  id : UInt16
  flags : UInt8
  data : Bytes
  deriving DecidableEq, Repr

structure Record where
  fixed : List FixedField := []
  /-- Nothing stands for null. -/
  varying : List (Option Bytes) := []
  tagged : List TaggedField := []
  deriving DecidableEq, Repr

namespace Record

def addFixed (r : Record) (data : Bytes) : Record := { r with fixed := r.fixed ++ [⟨data, false⟩] }

/-- A null column still takes up its width. -/
def addNullFixed (r : Record) (width : Nat) : Record :=
  { r with fixed := r.fixed ++ [⟨List.replicate width 0, true⟩] }

def addVariable (r : Record) (data : Option Bytes) : Record :=
  { r with varying := r.varying ++ [data] }

def addTagged (r : Record) (id : UInt16) (flags : UInt8) (data : Bytes) : Record :=
  { r with tagged := r.tagged ++ [⟨id, flags, data⟩] }

/-- Up to eight bits as a byte, the first the lowest. -/
def bitmapByte : List Bool → UInt8
  | [] => 0
  | b :: bits => (if b then (1 : UInt8) else 0) ||| (bitmapByte bits <<< 1)

def bitmap : (length : Nat) → List Bool → Bytes
  | 0, _ => []
  | n + 1, bits => bitmapByte (bits.take 8) :: bitmap n (bits.drop 8)

def bitmapLength (r : Record) : Nat := (r.fixed.length + 7) / 8

def fixedData (r : Record) : Bytes := r.fixed.flatMap (·.data)

def variableOffset (r : Record) : Nat := 4 + r.fixedData.length + r.bitmapLength

/-- The ends of the variable values, each marked if its value is null. -/
def variableDirectory : List (Option Bytes) → (position : Nat) → Bytes
  | [], _ => []
  | some data :: rest, position =>
    LittleEndian.encode 2 (position + data.length) ++
      variableDirectory rest (position + data.length)
  | none :: rest, position =>
    LittleEndian.encode 2 (UInt16.ofNat position ||| 0x8000).toNat ++
      variableDirectory rest position

def variableData (fields : List (Option Bytes)) : Bytes := fields.flatMap (·.getD [])

/-- Whether a flag byte is written: always with large tags, else only if a flag is set. -/
def hasFlagByte (layout : Layout) (t : TaggedField) : Bool := layout.hasLargeTags || t.flags != 0

def taggedValue (layout : Layout) (t : TaggedField) : Bytes :=
  if hasFlagByte layout t then t.flags :: t.data else t.data

/-- The offset of a tagged value; with small tags it also tells of the flag byte. -/
def taggedField (layout : Layout) (t : TaggedField) (offset : Nat) : UInt16 :=
  if !layout.hasLargeTags && t.flags != 0 then UInt16.ofNat offset ||| 0x4000
  else UInt16.ofNat offset

def taggedDirectory (layout : Layout) : List TaggedField → (offset : Nat) → Bytes
  | [], _ => []
  | t :: rest, offset =>
    LittleEndian.encode 2 t.id.toNat ++
      LittleEndian.encode 2 (taggedField layout t offset).toNat ++
      taggedDirectory layout rest (offset + (taggedValue layout t).length)

def taggedArea (layout : Layout) (fields : List TaggedField) : Bytes :=
  taggedDirectory layout fields (4 * fields.length) ++ fields.flatMap (taggedValue layout)

def encode (layout : Layout) (r : Record) : Bytes :=
  [UInt8.ofNat r.fixed.length, UInt8.ofNat (127 + r.varying.length)] ++
    LittleEndian.encode 2 r.variableOffset ++ r.fixedData ++
    bitmap r.bitmapLength (r.fixed.map (·.isNull)) ++
    variableDirectory r.varying 0 ++ variableData r.varying ++
    taggedArea layout r.tagged

end Record

end Ese.Build
