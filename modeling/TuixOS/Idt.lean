import TuixOS.Gdt
import TuixOS.Lib.GateDescriptor
import TuixOS.Lib.Table

/-!
# The interrupt table: `kernel/trap/idt.c`, `isr.c`, `idt_list.h`

`init_idt` writes a gate for each of the 256 vectors, and registers the handlers that have a name. The gate
of a vector leads to the stub that pushes the number of the vector, and from there `isr_handler` gets to
the handler of the same name (`vector_entry`).
-/

namespace TuixOS

open Lib

namespace Idt

/-! ## The lists -/

/-- The names of `idt_list.h`: `isr_##name##_stub` and `isr_##name##_handler`. -/
inductive Isr
  | divideError | debugException | nmi | breakpoint | overflow | boundsCheck | invalidOpcode
  | deviceNotAvailable | doubleFault | coprocessorSegment | invalidTss | segmentNotPresent
  | stackSegmentFault | generalProtectionFault | pageFault | reserved15 | floatingPoint
  | alignmentCheck | machineCheck | simdFloatingPoint | virtualization | controlProtection
  | reserved22 | reserved23 | reserved24 | reserved25 | reserved26 | reserved27
  | hypervisorInjection | vmmCommunication | securityException | reserved31
  | timer | keyboard | cascade | com2 | com1 | lpt2 | floppy | lpt1 | rtc | reserved41 | reserved42
  | reserved43 | ps2Mouse | fpu | ata1 | ata2
  | syscall
  deriving DecidableEq

/-- `IDT_LIST_EXP` -/
def idtListExp : List (Byte × Isr) :=
  [(0, .divideError), (1, .debugException), (2, .nmi), (3, .breakpoint), (4, .overflow), (5, .boundsCheck),
    (6, .invalidOpcode), (7, .deviceNotAvailable), (8, .doubleFault), (9, .coprocessorSegment),
    (10, .invalidTss), (11, .segmentNotPresent), (12, .stackSegmentFault),
    (13, .generalProtectionFault), (14, .pageFault), (15, .reserved15), (16, .floatingPoint),
    (17, .alignmentCheck), (18, .machineCheck), (19, .simdFloatingPoint), (20, .virtualization),
    (21, .controlProtection), (22, .reserved22), (23, .reserved23), (24, .reserved24), (25, .reserved25),
    (26, .reserved26), (27, .reserved27), (28, .hypervisorInjection), (29, .vmmCommunication),
    (30, .securityException), (31, .reserved31)]

/-- `IDT_LIST_PIC` -/
def idtListPic : List (Byte × Isr) :=
  [(32, .timer), (33, .keyboard), (34, .cascade), (35, .com2), (36, .com1), (37, .lpt2), (38, .floppy),
    (39, .lpt1), (40, .rtc), (41, .reserved41), (42, .reserved42), (43, .reserved43), (44, .ps2Mouse),
    (45, .fpu), (46, .ata1), (47, .ata2)]

/-- `IDT_LIST_SYSCALL` -/
def idtListSyscall : List (Byte × Isr) := [(128, .syscall)]

/-- `IDT_LIST_OTHER`: 48 to 127 and 129 to 255. -/
def idtListOther : List Byte := (List.range' 48 80 ++ List.range' 129 127).map (BitVec.ofNat 8)

/-- The vectors with a name. -/
def namedVectors : List (Byte × Isr) := idtListExp ++ idtListPic ++ idtListSyscall

/-- The stubs of `isr.c`. -/
inductive Stub
  | named (name : Isr)
  | numbered (num : Byte)
  deriving DecidableEq

/-- The number that the code of a stub pushes: `ISR_NOERRNAME` over the lists with names, and
`ISR_NOERRCODE` over the other one. -/
def Stub.Pushes (num : Byte) : Stub → Prop
  | .named name => (num, name) ∈ namedVectors
  | .numbered n => n ∈ idtListOther ∧ num = n

/-! ## The tables -/

/-- `IDT_ITEM_NUM` -/
def idtItemNum : Nat := 256

structure IdtEntry where
  baseLow : Half
  selector : Half
  zero : Byte
  flags : Byte
  baseHigh : Half
  deriving DecidableEq

/-- The quadword of a packed entry. -/
def IdtEntry.raw (e : IdtEntry) : BitVec 64 := e.baseHigh ++ e.flags ++ e.zero ++ e.selector ++ e.baseLow

def IdtEntry.gate (e : IdtEntry) : Gate := Gate.decode e.raw

structure IdtPtr where
  limit : Half
  base : Word

structure Tables where
  idt : Byte → IdtEntry
  /-- A handler is known by its name. -/
  interruptHandlers : Byte → Option Isr
  idtp : IdtPtr
  /-- The register of the CPU. -/
  idtr : IdtPtr

/-- The variables of `idt.c` are in the cleared part of the image; the firmware's table is loaded. -/
def bss (idtr : IdtPtr) : Tables := ⟨fun _ => ⟨0, 0, 0, 0, 0⟩, fun _ => none, ⟨0, 0⟩, idtr⟩

/-- The fields that `idt_set_gate` sets. -/
def gateEntry (base : Word) (sel : Half) (flags : Byte) : IdtEntry where
  baseLow := (base &&& 0xFFFF).setWidth 16
  baseHigh := ((base >>> 16) &&& 0xFFFF).setWidth 16
  selector := sel
  zero := 0
  flags := flags

def idtSetGate (num : Byte) (base : Word) (sel : Half) (flags : Byte) (idt : Byte → IdtEntry) :
    Byte → IdtEntry :=
  Function.update idt num (gateEntry base sel flags)

/-- `idt_set`, where `addr` has the addresses of the stubs. -/
def idtSet (addr : Stub → Word) (idt : Byte → IdtEntry) : Byte → IdtEntry :=
  let idt := (idtListExp ++ idtListPic).foldl
    (fun idt x => idtSetGate x.1 (addr (.named x.2)) 0x08 0x8E idt) idt
  let idt := idtListSyscall.foldl (fun idt x => idtSetGate x.1 (addr (.named x.2)) 0x08 0xEE idt) idt
  idtListOther.foldl (fun idt num => idtSetGate num (addr (.numbered num)) 0x08 0x8E idt) idt

def registerInterruptHandler (n : Byte) (handler : Isr) (handlers : Byte → Option Isr) :
    Byte → Option Isr :=
  Function.update handlers n (some handler)

def registerInterruptHandlers (handlers : Byte → Option Isr) : Byte → Option Isr :=
  namedVectors.foldl (fun handlers x => registerInterruptHandler x.1 x.2 handlers) handlers

/-- `init_idt`, where `idtAddr` is the address of `idt`. -/
def initIdt (addr : Stub → Word) (idtAddr : Word) (s : Tables) : Tables :=
  -- `sizeof(struct idt_entry) * IDT_ITEM_NUM - 1`
  let s := { s with idtp := ⟨BitVec.ofNat 16 (8 * idtItemNum - 1), idtAddr⟩ }
  let s := { s with idt := idtSet addr s.idt }
  let s := { s with interruptHandlers := registerInterruptHandlers s.interruptHandlers }
  { s with idtr := s.idtp }

/-- `interrupt_handlers[int_no]`, none if it is null. Behind the table there is other memory. -/
def handlerAt (s : Tables) (intNo : Word) : Res (Option Isr) :=
  if intNo.toNat < idtItemNum then .ok (s.interruptHandlers (intNo.setWidth 8)) else .error .fault

/-- The gate that the CPU reads for a vector, where its register is for `idt`. -/
def gateOf (idtAddr : Word) (s : Tables) (v : Byte) : Option Gate :=
  if s.idtr.base = idtAddr ∧ 8 * v.toNat + 7 ≤ s.idtr.limit.toNat then some (s.idt v).gate else none

/-! ## The lists and the vectors -/

/-- The stub of a vector. -/
def stubOf (v : Byte) : Stub :=
  match namedVectors.lookup v with
  | some name => .named name
  | none => .numbered v

theorem named_keys : namedVectors.map Prod.fst = (List.range 48 ++ [128]).map (BitVec.ofNat 8) := rfl

theorem named_nodup : (namedVectors.map Prod.fst).Nodup := by
  rw [named_keys]
  decide

theorem mem_of_lookup {v : Byte} {name : Isr} (h : namedVectors.lookup v = some name) :
    (v, name) ∈ namedVectors := by
  obtain ⟨l₁, l₂, hl, -⟩ := List.lookup_eq_some_iff.mp h
  rw [hl]
  simp

theorem mem_map_ofNat {v : Byte} {l : List Nat} (hl : ∀ n ∈ l, n < 256) :
    v ∈ l.map (BitVec.ofNat 8) ↔ v.toNat ∈ l := by
  rw [List.mem_map]
  constructor
  · rintro ⟨n, hn, rfl⟩
    rwa [BitVec.toNat_ofNat, Nat.mod_eq_of_lt (hl n hn)]
  · intro hv
    exact ⟨v.toNat, hv, by simp⟩

theorem mem_idtListOther {v : Byte} : v ∈ idtListOther ↔ 48 ≤ v.toNat ∧ v.toNat ≠ 128 := by
  have hlt := v.isLt
  rw [idtListOther, mem_map_ofNat, List.mem_append, List.mem_range'_1, List.mem_range'_1]
  · omega
  · intro n hn
    rw [List.mem_append, List.mem_range'_1, List.mem_range'_1] at hn
    omega

/-- A vector has a name, or it is in `IDT_LIST_OTHER`. -/
theorem lookup_eq_none_iff {v : Byte} : namedVectors.lookup v = none ↔ v ∈ idtListOther := by
  have hkey : namedVectors.lookup v = none ↔ v ∉ namedVectors.map Prod.fst := by
    rw [List.lookup_eq_none_iff, List.mem_map]
    constructor
    · rintro hall ⟨x, hx, rfl⟩
      exact bne_iff_ne.mp (hall x hx) rfl
    · intro hv x hx
      rw [bne_iff_ne]
      rintro rfl
      exact hv ⟨x, hx, rfl⟩
  rw [hkey, named_keys, mem_map_ofNat, mem_idtListOther]
  · simp
  · intro n hn
    simp only [List.mem_append, List.mem_range, List.mem_singleton] at hn
    omega

theorem pushes_stubOf (v : Byte) : (stubOf v).Pushes v := by
  unfold stubOf
  cases h : namedVectors.lookup v with
  | some name => exact mem_of_lookup h
  | none => exact ⟨lookup_eq_none_iff.mp h, rfl⟩

/-! ## The gates -/

theorem gateEntry_gate (base : Word) (sel : Half) (flags : Byte) : (gateEntry base sel flags).gate = {
    offset := base
    selector := sel
    type := flags.extractLsb' 0 4
    codeOrData := flags.getLsbD 4
    dpl := flags.extractLsb' 5 2
    present := flags.getLsbD 7 } := by
  have hoffset : ((base >>> 16) &&& 0xFFFF).setWidth 16 ++ (base &&& 0xFFFF).setWidth 16 = base := by
    rw [Gdt.setWidth_lowHalf, Gdt.setWidth_lowHalf]
    ext i hi
    simp only [BitVec.getElem_append]
    grind
  rw [IdtEntry.gate, IdtEntry.raw, Gate.decode_append]
  simp only [gateEntry, hoffset]

/-- The gate of a vector after `init_idt`. -/
def vectorGate (addr : Stub → Word) (v : Byte) : Gate where
  offset := addr (stubOf v)
  selector := Gdt.kerCs
  type := Gate.interrupt32
  codeOrData := false
  dpl := if v = 128 then 3 else 0
  present := true

theorem gateEntry_8E (base : Word) : (gateEntry base 0x08 0x8E).gate =
    ⟨base, Gdt.kerCs, Gate.interrupt32, false, 0, true⟩ :=
  gateEntry_gate ..

theorem gateEntry_EE (base : Word) : (gateEntry base 0x08 0xEE).gate =
    ⟨base, Gdt.kerCs, Gate.interrupt32, false, 3, true⟩ :=
  gateEntry_gate ..

theorem idtSet_gate (addr : Stub → Word) (idt : Byte → IdtEntry) (v : Byte) :
    (idtSet addr idt v).gate = vectorGate addr v := by
  have hfirst : ((idtListExp ++ idtListPic).map Prod.fst).Nodup := by decide
  have hsplit : namedVectors.lookup v =
      ((idtListExp ++ idtListPic).lookup v).or (idtListSyscall.lookup v) := List.lookup_append
  have h128 : (idtListExp ++ idtListPic).lookup 128 = none := by decide
  have hsyscall : ∀ name, idtListSyscall.lookup v = some name → v = 128 := by
    intro name h
    by_contra hne
    rw [idtListSyscall, List.lookup_cons, beq_false_of_ne hne] at h
    cases h
  simp only [idtSet, idtSetGate]
  rw [foldl_update_keys fun num => gateEntry (addr (.numbered num)) 0x08 0x8E]
  by_cases hother : v ∈ idtListOther
  · have hne : v ≠ 128 := by
      rintro rfl
      exact absurd (mem_idtListOther.mp hother).2 (by decide)
    rw [if_pos hother, gateEntry_8E, vectorGate, stubOf, lookup_eq_none_iff.mpr hother, if_neg hne]
  · rw [if_neg hother, foldl_update_lookup (fun _ name => gateEntry (addr (.named name)) 0x08 0xEE)
      (by decide), foldl_update_lookup (fun _ name => gateEntry (addr (.named name)) 0x08 0x8E) hfirst]
    cases hsys : idtListSyscall.lookup v with
    | some name =>
      obtain rfl := hsyscall name hsys
      rw [hsys, h128] at hsplit
      simp only [gateEntry_EE, vectorGate, stubOf, hsplit, Option.none_or, if_true]
    | none =>
      rw [hsys, Option.or_none] at hsplit
      cases hname : (idtListExp ++ idtListPic).lookup v with
      | some name =>
        have hne : v ≠ 128 := by
          rintro rfl
          rw [h128] at hname
          cases hname
        rw [hname] at hsplit
        simp only [gateEntry_8E, vectorGate, stubOf, hsplit, if_neg hne]
      | none =>
        rw [hname] at hsplit
        exact absurd (lookup_eq_none_iff.mp hsplit) hother

/-! ## From a vector to its handler -/

/-- A stub pushes one number. -/
theorem Stub.Pushes.unique {u v : Byte} {st : Stub} (hu : st.Pushes u) (hv : st.Pushes v) : u = v := by
  have hnames : ∀ x ∈ namedVectors, ∀ y ∈ namedVectors, x.2 = y.2 → x.1 = y.1 := by decide +kernel
  cases st with
  | named name => exact hnames _ hu _ hv rfl
  | numbered n => rw [hu.2, hv.2]

theorem registerInterruptHandlers_bss (v : Byte) :
    registerInterruptHandlers (fun _ => none) v = namedVectors.lookup v := by
  simp only [registerInterruptHandlers, registerInterruptHandler]
  rw [foldl_update_lookup (fun _ name => some name) named_nodup]
  cases namedVectors.lookup v with
  | some name => rfl
  | none => rfl

/-- The index of `isr_handler` is inside the table for the number of every vector. -/
theorem handlerAt_vector (s : Tables) (v : Byte) :
    handlerAt s (v.setWidth 32) = .ok (s.interruptHandlers v) := by
  have hlt : (v.setWidth 32).toNat < idtItemNum := by
    rw [BitVec.toNat_setWidth]
    exact Nat.lt_of_le_of_lt (Nat.mod_le _ _) v.isLt
  rw [handlerAt, if_pos hlt, BitVec.setWidth_setWidth_of_le v (by decide), BitVec.setWidth_eq]

theorem gateOf_initIdt (addr : Stub → Word) (idtAddr : Word) (s : Tables) (v : Byte) :
    gateOf idtAddr (initIdt addr idtAddr s) v = some (vectorGate addr v) := by
  have hlt := v.isLt
  have hidtr : (initIdt addr idtAddr s).idtr = ⟨BitVec.ofNat 16 (8 * idtItemNum - 1), idtAddr⟩ := rfl
  have hmax : (BitVec.ofNat 16 (8 * idtItemNum - 1)).toNat = 2047 := rfl
  have hfits : 8 * v.toNat + 7 ≤ 2047 := by omega
  rw [gateOf, hidtr]
  simp only [hmax, hfits, and_self, if_true]
  have hidt : (initIdt addr idtAddr s).idt = idtSet addr s.idt := by simp only [initIdt]
  rw [hidt, idtSet_gate]

theorem vectorGate_admits (addr : Stub → Word) (v : Byte) (cause : Gate.Cause) (cpl : Fin 4) :
    (vectorGate addr v).Admits cause cpl ↔ (cause = .instruction → cpl = 0 ∨ v = 128) := by
  have hadmits : (vectorGate addr v).Admits cause cpl ↔
      (cause = .instruction → cpl.val ≤ (vectorGate addr v).dpl.toNat) := by
    simp [Gate.Admits, vectorGate]
  rw [hadmits]
  by_cases hv : v = 128
  · have hle : cpl.val ≤ (vectorGate addr v).dpl.toNat := by
      rw [vectorGate, if_pos hv]
      show cpl.val ≤ 3
      omega
    exact ⟨fun _ _ => Or.inr hv, fun _ _ => hle⟩
  · have hdpl : (vectorGate addr v).dpl.toNat = 0 := by
      rw [vectorGate, if_neg hv]
      rfl
    simp only [hdpl, Nat.le_zero_eq, Fin.val_eq_zero_iff, hv, or_false]

/-- **From a vector to its handler.** After `init_idt` each of the 256 vectors has its gate, to the kernel's
code; the stub behind it pushes this number and no other, and for the number `isr_handler` finds what the
list has. User code gets through the gate of vector 128 only. -/
theorem vector_entry (addr : Stub → Word) (idtAddr : Word) (idtr : IdtPtr) (v : Byte) :
    let s := initIdt addr idtAddr (bss idtr)
    ∃ (g : Gate) (st : Stub), gateOf idtAddr s v = some g ∧ g.selector = Gdt.kerCs ∧ g.offset = addr st ∧
      (∀ u, st.Pushes u ↔ u = v) ∧
      (∀ (cause : Gate.Cause) (cpl : Fin 4),
        g.Admits cause cpl ↔ (cause = .instruction → cpl = 0 ∨ v = 128)) ∧
      ∃ h, handlerAt s (v.setWidth 32) = .ok h ∧ ∀ name, h = some name ↔ (v, name) ∈ namedVectors := by
  intro s
  refine ⟨vectorGate addr v, stubOf v, gateOf_initIdt addr idtAddr _ v, rfl, rfl, fun u => ?_,
    vectorGate_admits addr v, namedVectors.lookup v, ?_, fun name => ?_⟩
  · constructor
    · intro hu
      exact hu.unique (pushes_stubOf v)
    · rintro rfl
      exact pushes_stubOf u
  · rw [handlerAt_vector]
    have hhandlers : s.interruptHandlers = registerInterruptHandlers fun _ => none := by
      simp only [s, initIdt, bss]
    rw [hhandlers, registerInterruptHandlers_bss]
  · constructor
    · exact mem_of_lookup
    · intro hmem
      cases hlookup : namedVectors.lookup v with
      | some name' =>
        have hkeys : ∀ x ∈ namedVectors, ∀ y ∈ namedVectors, x.1 = y.1 → x.2 = y.2 := by decide +kernel
        exact congrArg some (hkeys _ (mem_of_lookup hlookup) _ hmem rfl)
      | none =>
        rw [List.lookup_eq_none_iff] at hlookup
        exact absurd rfl (bne_iff_ne.mp (hlookup _ hmem))

end Idt

end TuixOS
