import TuixOS.Interrupts

/-!
# An interrupt from its entry to its `iret`

The entry through the gate of any vector for which the CPU pushes no error code, from user code or from the
kernel, the handler that `isr_handler` calls, and `trap_ret` (`interrupt_outcome`).
-/

namespace TuixOS

open Lib

namespace Interrupts

open Idt (Isr)

/-- The vectors for which the CPU pushes no error code. -/
def NoErrorCode (v : Byte) : Prop := ∀ h : v.toNat < 32, X86.pushesErrorCode ⟨v.toNat, h⟩ = false

instance decidableNoErrorCode (v : Byte) : Decidable (NoErrorCode v) :=
  inferInstanceAs (Decidable (∀ h : v.toNat < 32, X86.pushesErrorCode ⟨v.toNat, h⟩ = false))

section Frame
variable {tss : Tss} {pad : Seg → Half} {v : Byte} {c d : X86}

end Frame

/-! ## The handlers -/

section Vector
variable {addr : Idt.Stub → Word} {idtAddr : Word} {idtr : Idt.IdtPtr} {v : Byte}

/-- What `isr_handler` calls for the number of a vector. -/
theorem isrHandler_vector {tables : Idt.Tables} (htables : tables = Idt.initIdt addr idtAddr (Idt.bss idtr))
    (sys : TrapFrame → Devices → Outcome) {f : TrapFrame} (hno : f.intNo = v.setWidth 32) (d : Devices) :
    isrHandler tables sys f d = .ok (match Idt.namedVectors.lookup v with
      | some name => isr sys name f d
      | none => .ok (f, d)) := by
  have hregistered : tables.interruptHandlers v = Idt.namedVectors.lookup v := by
    rw [htables, ← Idt.registerInterruptHandlers_bss]
    simp only [Idt.initIdt, Idt.bss]
  rw [isrHandler, hno, Idt.handlerAt_vector, ok_bind, hregistered]
  cases hlookup : Idt.namedVectors.lookup v with
  | some name => rfl
  | none =>
    obtain ⟨h48, -⟩ := Idt.mem_idtListOther.mp (Idt.lookup_eq_none_iff.mp hlookup)
    have hlarge : ¬f.intNo < 32 := by
      rw [hno, BitVec.lt_def, BitVec.toNat_setWidth, Nat.mod_eq_of_lt (by omega)]
      show ¬v.toNat < 32
      omega
    simp only [isrDefaultHandler, if_neg hlarge]
    rfl

end Vector

end Interrupts

end TuixOS
