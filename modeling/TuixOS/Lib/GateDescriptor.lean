import Mathlib.Data.BitVec

/-!
# Gate descriptors of the x86

A gate is a quadword with its offset in two pieces (`decode`); `decode_append` reads a gate that is given by
its five fields, the highest one first. `Admits` is what the CPU asks before it goes through a gate.
-/

namespace Lib

@[ext]
structure Gate where
  offset : BitVec 32
  selector : BitVec 16
  type : BitVec 4
  /-- Set for code and data, clear for a gate. -/
  codeOrData : Bool
  dpl : BitVec 2
  present : Bool
  deriving DecidableEq

namespace Gate

def decode (q : BitVec 64) : Gate where
  offset := q.extractLsb' 48 16 ++ q.extractLsb' 0 16
  selector := q.extractLsb' 16 16
  type := q.extractLsb' 40 4
  codeOrData := q.getLsbD 44
  dpl := q.extractLsb' 45 2
  present := q.getLsbD 47

/-- The type of the interrupt gates of 32 bits. -/
def interrupt32 : BitVec 4 := 0xE

/-- What a vector is raised by. -/
inductive Cause
  | hardware
  | exception
  /-- `int n` -/
  | instruction
  deriving DecidableEq

/-- An interrupt gate that code of the privilege `cpl` gets through; only an instruction is checked. -/
def Admits (g : Gate) (cause : Cause) (cpl : Nat) : Prop :=
  g.present = true ∧ g.codeOrData = false ∧ g.type = interrupt32 ∧
    (cause = .instruction → cpl ≤ g.dpl.toNat)

instance decidableAdmits (g : Gate) (cause : Cause) (cpl : Nat) : Decidable (g.Admits cause cpl) :=
  inferInstanceAs (Decidable (_ ∧ _ ∧ _ ∧ _))

theorem decode_append (offsetHigh : BitVec 16) (flags zero : BitVec 8) (selector offsetLow : BitVec 16) :
    decode (offsetHigh ++ flags ++ zero ++ selector ++ offsetLow) = {
      offset := offsetHigh ++ offsetLow
      selector := selector
      type := flags.extractLsb' 0 4
      codeOrData := flags.getLsbD 4
      dpl := flags.extractLsb' 5 2
      present := flags.getLsbD 7 } := by
  refine Gate.ext ?offset ?selector ?type ?codeOrData ?dpl ?present
  case offset =>
    ext i hi
    simp only [decode, BitVec.getLsbD_append]
    grind
  case selector =>
    ext i hi
    simp only [decode, BitVec.getElem_extractLsb', BitVec.getLsbD_append]
    grind
  case type =>
    ext i hi
    simp only [decode, BitVec.getElem_extractLsb', BitVec.getLsbD_append]
    grind
  case codeOrData =>
    simp only [decode]
    grind
  case dpl =>
    ext i hi
    simp only [decode, BitVec.getElem_extractLsb', BitVec.getLsbD_append]
    grind
  case present =>
    simp only [decode]
    grind

end Gate

end Lib
