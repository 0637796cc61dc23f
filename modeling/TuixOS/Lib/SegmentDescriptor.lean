import Mathlib.Data.BitVec

/-!
# Segment descriptors of the x86

A descriptor is a quadword. Its base and its limit are in pieces (`decode`); `decode_append` reads a
descriptor that is given by its six fields, the highest one first.
-/

namespace Lib

@[ext]
structure Descriptor where
  base : BitVec 32
  limit : BitVec 20
  type : BitVec 4
  /-- Set for code and data, clear for a system descriptor. -/
  codeOrData : Bool
  dpl : BitVec 2
  present : Bool
  /-- The limit counts pages. -/
  granular : Bool
  deriving DecidableEq

namespace Descriptor

def decode (q : BitVec 64) : Descriptor where
  base := q.extractLsb' 56 8 ++ q.extractLsb' 16 24
  limit := q.extractLsb' 48 4 ++ q.extractLsb' 0 16
  type := q.extractLsb' 40 4
  codeOrData := q.getLsbD 44
  dpl := q.extractLsb' 45 2
  present := q.getLsbD 47
  granular := q.getLsbD 55

/-- The limit in bytes. -/
def byteLimit (d : Descriptor) : Nat := if d.granular then d.limit.toNat * 4096 + 4095 else d.limit.toNat

/-- The types of the task state segments of 32 bits, and the one of 16 bits that can be loaded. -/
def availableTss : BitVec 4 := 0x9
def busyTss : BitVec 4 := 0xB
def availableTss16 : BitVec 4 := 0x1

def IsTss (d : Descriptor) (type : BitVec 4) : Prop :=
  d.present = true ∧ d.codeOrData = false ∧ d.type = type

instance decidableIsTss (d : Descriptor) (type : BitVec 4) : Decidable (d.IsTss type) :=
  inferInstanceAs (Decidable (_ ∧ _ ∧ _))

def IsSegment (d : Descriptor) : Prop := d.present = true ∧ d.codeOrData = true

instance decidableIsSegment (d : Descriptor) : Decidable d.IsSegment :=
  inferInstanceAs (Decidable (_ ∧ _))

/-! ### Code and data -/

def IsCode (d : Descriptor) : Prop := d.type.getLsbD 3 = true

instance decidableIsCode (d : Descriptor) : Decidable d.IsCode := inferInstanceAs (Decidable (_ = _))

/-- A code segment can be loaded for reading, a data segment always. -/
def Readable (d : Descriptor) : Prop := d.IsCode → d.type.getLsbD 1 = true

def Writable (d : Descriptor) : Prop := ¬d.IsCode ∧ d.type.getLsbD 1 = true

def Conforming (d : Descriptor) : Prop := d.IsCode ∧ d.type.getLsbD 2 = true

/-- The offset is in the segment; below the limit it is outside of one that grows down. -/
def Contains (d : Descriptor) (offset : BitVec 32) : Prop :=
  if ¬d.IsCode ∧ d.type.getLsbD 2 = true then d.byteLimit < offset.toNat else offset.toNat ≤ d.byteLimit

/-- A program of the privilege `cpl` can load the segment to read data, with `rpl` in the selector. -/
def LoadsData (d : Descriptor) (cpl rpl : BitVec 2) : Prop :=
  d.IsSegment ∧ d.Readable ∧ (d.Conforming ∨ cpl ≤ d.dpl ∧ rpl ≤ d.dpl)

/-- And for its stack. -/
def LoadsStack (d : Descriptor) (cpl rpl : BitVec 2) : Prop :=
  d.IsSegment ∧ d.Writable ∧ rpl = cpl ∧ d.dpl = cpl

/-- A far return to the privilege `rpl` of the selector can load the segment for the code. -/
def ReturnsTo (d : Descriptor) (rpl : BitVec 2) : Prop :=
  d.IsSegment ∧ d.IsCode ∧ (d.dpl = rpl ∨ d.Conforming ∧ d.dpl ≤ rpl)

/-! ### The fields -/

theorem decode_append (baseHigh flags access baseMiddle : BitVec 8) (baseLow limitLow : BitVec 16) :
    decode (baseHigh ++ flags ++ access ++ baseMiddle ++ baseLow ++ limitLow) = {
      base := baseHigh ++ baseMiddle ++ baseLow
      limit := flags.extractLsb' 0 4 ++ limitLow
      type := access.extractLsb' 0 4
      codeOrData := access.getLsbD 4
      dpl := access.extractLsb' 5 2
      present := access.getLsbD 7
      granular := flags.getLsbD 7 } := by
  refine Descriptor.ext ?base ?limit ?type ?codeOrData ?dpl ?present ?granular
  case base =>
    ext i hi
    simp only [decode, BitVec.getLsbD_append]
    grind
  case limit =>
    ext i hi
    simp only [decode, BitVec.getLsbD_append]
    grind
  case type =>
    ext i hi
    simp only [decode, BitVec.getElem_extractLsb', BitVec.getLsbD_append]
    grind
  case codeOrData =>
    simp only [decode]
    grind
  case dpl =>
    ext i hi
    simp only [decode, BitVec.getElem_extractLsb', BitVec.getLsbD_append]
    grind
  case present =>
    simp only [decode]
    grind
  case granular =>
    simp only [decode]
    grind

end Descriptor

end Lib
