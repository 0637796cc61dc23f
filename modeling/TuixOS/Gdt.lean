import TuixOS.Syscall
import TuixOS.Lib.Run
import TuixOS.Lib.SegmentDescriptor
import Mathlib.Logic.Function.Basic
import Mathlib.Tactic.IntervalCases

/-!
# The descriptor tables: `kernel/sys/gdt.c`, and `switch_uvm`

The CPU reads the entries of the GDT, and writes to them: a segment that is loaded is marked accessed, and
`ltr` marks the task state segment busy. `switch_uvm` writes that entry again before each `ltr`
(`tss_at_every_ltr`). The address of the `struct cpu` is `cpu`.
-/

namespace TuixOS

open Lib

namespace Gdt

/-! ## The tables -/

/-- `MAX_SEGS` -/
def maxSegs : Nat := 6

theorem lt_maxSegs {i : Nat} (hi : i ≤ 5) : i < maxSegs := Nat.lt_succ_of_le hi

def nullI : Fin maxSegs := ⟨0, lt_maxSegs (by decide)⟩
/-- `KER_CI` -/
def kerCi : Fin maxSegs := ⟨1, lt_maxSegs (by decide)⟩
/-- `KER_DI` -/
def kerDi : Fin maxSegs := ⟨2, lt_maxSegs (by decide)⟩
/-- `USR_CI` -/
def usrCi : Fin maxSegs := ⟨3, lt_maxSegs (by decide)⟩
/-- `USR_DI` -/
def usrDi : Fin maxSegs := ⟨4, lt_maxSegs (by decide)⟩
/-- `TSS_I` -/
def tssI : Fin maxSegs := ⟨5, lt_maxSegs (by decide)⟩

/-- `KER_CS` -/
def kerCs : Half := 0x08
/-- `TSS_S` -/
def tssS : Half := 0x28

structure GdtEntry where
  limitLow : Half
  baseLow : Half
  baseMiddle : Byte
  access : Byte
  granularity : Byte
  baseHigh : Byte
  deriving DecidableEq

namespace GdtEntry

/-- The quadword of a packed entry. -/
def raw (e : GdtEntry) : BitVec 64 :=
  e.baseHigh ++ e.granularity ++ e.access ++ e.baseMiddle ++ e.baseLow ++ e.limitLow

/-- The entry as the CPU reads it. -/
def descriptor (e : GdtEntry) : Descriptor := Descriptor.decode e.raw

/-- The CPU sets bits of the type. -/
def mark (bits : Byte) (e : GdtEntry) : GdtEntry := { e with access := e.access ||| bits }

end GdtEntry

/-- The fields of `struct tss_entry` that are written. -/
structure TssEntry extends Tss where
  iomapBase : Half

/-- `sizeof(struct tss_entry)` -/
def tssEntrySize : Word := 104

structure Machine where
  gdt : Fin maxSegs → GdtEntry
  ts : TssEntry
  gdtrLimit : Half
  gdtrBase : Addr
  tr : Half
  cr3 : Addr

/-- `&(c->gdt)` -/
def gdtAddr (cpu : Addr) : Addr := cpu
/-- `&(cur_cpu->ts)`, behind the GDT and three words. -/
def tsAddr (cpu : Addr) : Addr := cpu + 60

/-! ## The CPU -/

namespace Machine

def setEntry (i : Fin maxSegs) (e : GdtEntry) (s : Machine) : Machine :=
  { s with gdt := Function.update s.gdt i e }

/-- The entry that a selector is for, where the table is that of the `struct cpu`. There is no LDT. -/
def selected (cpu : Addr) (sel : Half) (s : Machine) : Option (Fin maxSegs) :=
  if h : sel.toNat / 8 < maxSegs then
    if s.gdtrBase = gdtAddr cpu ∧ sel.toNat / 8 * 8 + 7 ≤ s.gdtrLimit.toNat ∧ sel.getLsbD 2 = false then
      some ⟨sel.toNat / 8, h⟩
    else none
  else none

/-- A segment register is loaded (the privileges are not modelled). A null selector has no descriptor, and
a selector that is for no code or data is an exception. -/
def loadSeg (cpu : Addr) (sel : Half) (s : Machine) : Res Machine :=
  if sel.toNat / 4 = 0 then .ok s
  else
    match s.selected cpu sel with
    | some i =>
      if (s.gdt i).descriptor.IsSegment then .ok (s.setEntry i ((s.gdt i).mark 1)) else .error .fault
    | none => .error .fault

/-- `ltr`: anything but an available task state segment is an exception. -/
def ltr (cpu : Addr) (sel : Half) (s : Machine) : Res Machine :=
  match s.selected cpu sel with
  | some i =>
    if (s.gdt i).descriptor.IsTss Descriptor.availableTss ∨
        (s.gdt i).descriptor.IsTss Descriptor.availableTss16 then
      .ok { s.setEntry i ((s.gdt i).mark 2) with tr := sel }
    else .error .fault
  | none => .error .fault

end Machine

/-! ## The functions -/

def initGdt (cpu : Addr) (s : Machine) : Res Machine := do
  let s := s.setEntry nullI ⟨0x0000, 0x0000, 0x00, 0x00, 0x00, 0x00⟩
  let s := s.setEntry kerCi ⟨0xFFFF, 0x0000, 0x00, 0x9A, 0xCF, 0x00⟩
  let s := s.setEntry kerDi ⟨0xFFFF, 0x0000, 0x00, 0x92, 0xCF, 0x00⟩
  let s := s.setEntry usrCi ⟨0xFFFF, 0x0000, 0x00, 0xFA, 0xCF, 0x00⟩
  let s := s.setEntry usrDi ⟨0xFFFF, 0x0000, 0x00, 0xF2, 0xCF, 0x00⟩
  -- `sizeof(c->gdt) - 1`
  let s := { s with gdtrLimit := BitVec.ofNat 16 (8 * maxSegs - 1), gdtrBase := gdtAddr cpu }
  let s ← s.loadSeg cpu kerCs
  -- `ds`, `es`, `fs`, `gs` and `ss`
  let s ← s.loadSeg cpu kerDs
  let s ← s.loadSeg cpu kerDs
  let s ← s.loadSeg cpu kerDs
  let s ← s.loadSeg cpu kerDs
  s.loadSeg cpu kerDs

def setTssEntry (num : Fin maxSegs) (base limit : Word) (access granularity : Byte) (s : Machine) :
    Machine :=
  s.setEntry num
    { baseLow := (base &&& 0xFFFF).setWidth 16
      baseMiddle := ((base >>> 16) &&& 0xFF).setWidth 8
      baseHigh := ((base >>> 24) &&& 0xFF).setWidth 8
      limitLow := (limit &&& 0xFFFF).setWidth 16
      granularity := (((limit >>> 16) &&& 0x0F) ||| (granularity.setWidth 32 &&& 0xF0)).setWidth 8
      access := access }

/-- `switch_uvm` up to its `ltr`. -/
def atLtr (cpu : Addr) (p : ProcStack) (s : Machine) : Machine :=
  let s := setTssEntry tssI (tsAddr cpu) (tssEntrySize - 1) 0x89 0x40 s
  { s with ts := { ss0 := kerDs, esp0 := p.kstack + BitVec.ofNat 32 kstackSize, iomapBase := 0xFFFF } }

def switchUvm (cpu : Addr) (p : Option ProcStack) (s : Machine) : Res Machine :=
  match p with
  | none => .error (.panic "switch_uvm: no process")
  | some p =>
    if p.kstack = 0 then .error (.panic "switch_uvm: no kstack")
    else if p.pgdir = 0 then .error (.panic "switch_uvm: no pgdir")
    else do
      let s ← (atLtr cpu p s).ltr cpu tssS
      return { s with cr3 := v2p p.pgdir }

/-! ## Descriptors -/

@[simp] theorem GdtEntry.descriptor_eq (e : GdtEntry) : e.descriptor = {
    base := e.baseHigh ++ e.baseMiddle ++ e.baseLow
    limit := e.granularity.extractLsb' 0 4 ++ e.limitLow
    type := e.access.extractLsb' 0 4
    codeOrData := e.access.getLsbD 4
    dpl := e.access.extractLsb' 5 2
    present := e.access.getLsbD 7
    granular := e.granularity.getLsbD 7 } :=
  Descriptor.decode_append ..

theorem setWidth_lowHalf (x : Word) : (x &&& 0xFFFF).setWidth 16 = x.setWidth 16 := by
  rw [BitVec.setWidth_and]
  exact BitVec.and_allOnes

theorem baseFields (base : Word) : ((base >>> 24) &&& 0xFF).setWidth 8 ++
    ((base >>> 16) &&& 0xFF).setWidth 8 ++ (base &&& 0xFFFF).setWidth 16 = base := by
  have hbyte (x : Word) : (x &&& 0xFF).setWidth 8 = x.setWidth 8 := by
    rw [BitVec.setWidth_and]
    exact BitVec.and_allOnes
  rw [hbyte, hbyte, setWidth_lowHalf]
  ext i hi
  simp only [BitVec.getElem_append]
  grind

theorem limitFields (limit : Word) (granularity : Byte) :
    ((((limit >>> 16) &&& 0x0F) ||| (granularity.setWidth 32 &&& 0xF0)).setWidth 8).extractLsb' 0 4 ++
      (limit &&& 0xFFFF).setWidth 16 = limit.extractLsb' 0 20 := by
  have hlow : (0x0F : Word).extractLsb' 0 4 = BitVec.allOnes 4 := rfl
  have hhigh : (0xF0 : Word).extractLsb' 0 4 = 0 := rfl
  rw [BitVec.extractLsb'_setWidth_of_le (by decide), BitVec.extractLsb'_or, BitVec.extractLsb'_and,
    BitVec.extractLsb'_and, hlow, hhigh, BitVec.and_allOnes, setWidth_lowHalf]
  ext i hi
  simp only [BitVec.getElem_append]
  grind

/-- The fields of an entry fit together again, for every base and every limit of 20 bits. -/
theorem setTssEntry_descriptor (num : Fin maxSegs) (base limit : Word) (access granularity : Byte)
    (s : Machine) : ((setTssEntry num base limit access granularity s).gdt num).descriptor = {
      base := base
      limit := limit.extractLsb' 0 20
      type := access.extractLsb' 0 4
      codeOrData := access.getLsbD 4
      dpl := access.extractLsb' 5 2
      present := access.getLsbD 7
      granular := granularity.getLsbD 7 } := by
  simp only [setTssEntry, Machine.setEntry, Function.update_self, GdtEntry.descriptor_eq]
  exact Descriptor.ext (baseFields base) (limitFields limit granularity) rfl rfl rfl rfl (by simp)

/-- What marking leaves of a descriptor. -/
theorem GdtEntry.mark_descriptor (bits : Byte) (e : GdtEntry) (hbits : bits &&& 0xF0 = 0) :
    (e.mark bits).descriptor =
      { e.descriptor with type := e.descriptor.type ||| bits.extractLsb' 0 4 } := by
  have hbit (i : Nat) (hi : 4 ≤ i) (hi' : i < 8) : bits.getLsbD i = false := by
    have hand : (bits &&& 0xF0).getLsbD i = false := by
      rw [hbits]
      exact BitVec.getLsbD_zero
    have hmask : (0xF0 : Byte).getLsbD i = true := by
      interval_cases i <;> rfl
    rwa [BitVec.getLsbD_and, hmask, Bool.and_true] at hand
  simp only [GdtEntry.descriptor_eq, GdtEntry.mark]
  refine Descriptor.ext rfl rfl BitVec.extractLsb'_or ?codeOrData ?dpl ?present rfl
  case codeOrData =>
    simp only [BitVec.getLsbD_or, hbit 4 (by decide) (by decide), Bool.or_false]
  case dpl =>
    ext i hi
    simp only [BitVec.getElem_extractLsb', BitVec.getLsbD_or, hbit (5 + i) (by omega) (by omega),
      Bool.or_false]
  case present =>
    simp only [BitVec.getLsbD_or, hbit 7 (by decide) (by decide), Bool.or_false]

theorem GdtEntry.mark_mark (bits : Byte) (e : GdtEntry) : (e.mark bits).mark bits = e.mark bits := by
  simp only [GdtEntry.mark, BitVec.or_assoc, BitVec.or_self]

/-! ## Loading a segment -/

namespace Machine
variable {cpu : Addr} {sel : Half} {s s' : Machine} {i j : Fin maxSegs}

theorem setEntry_of_ne {e : GdtEntry} (hij : j ≠ i) : (s.setEntry i e).gdt j = s.gdt j :=
  Function.update_of_ne hij ..

theorem setEntry_self {e : GdtEntry} : (s.setEntry i e).gdt i = e :=
  Function.update_self ..

theorem val_of_selected (h : s.selected cpu sel = some i) : i.val = sel.toNat / 8 := by
  simp only [selected] at h
  split_ifs at h
  exact (congrArg Fin.val (Option.some.inj h)).symm

/-- The table that `init_gdt` loads. -/
structure Tables (cpu : Addr) (s : Machine) : Prop where
  limit : s.gdtrLimit = BitVec.ofNat 16 (8 * maxSegs - 1)
  base : s.gdtrBase = gdtAddr cpu

theorem Tables.selected (h : Tables cpu s) (hval : sel.toNat / 8 = i.val)
    (hldt : sel.getLsbD 2 = false) : s.selected cpu sel = some i := by
  have hlt := i.isLt
  have hmax : (BitVec.ofNat 16 (8 * maxSegs - 1)).toNat = 47 := rfl
  have hbound : sel.toNat / 8 * 8 + 7 ≤ 47 := by
    simp only [maxSegs] at hlt
    omega
  rw [Machine.selected, dif_pos (hval ▸ hlt), h.limit, hmax, if_pos ⟨h.base, hbound, hldt⟩]
  exact congrArg some (Fin.ext hval)

/-- Loading a segment marks one entry that is not of a system descriptor, or none. -/
theorem loadSeg_cases (h : s.loadSeg cpu sel = .ok s') : s' = s ∨
    ∃ i : Fin maxSegs, i.val = sel.toNat / 8 ∧ s' = s.setEntry i ((s.gdt i).mark 1) := by
  simp only [loadSeg] at h
  split_ifs at h with hnull
  · exact Or.inl (Except.ok.inj h).symm
  · split at h
    · next i hsel =>
      split_ifs at h
      exact Or.inr ⟨i, val_of_selected hsel, (Except.ok.inj h).symm⟩
    · cases h

theorem loadSeg_segment (ht : Tables cpu s) (hval : sel.toNat / 8 = i.val) (hldt : sel.getLsbD 2 = false)
    (hnull : sel.toNat / 4 ≠ 0) (hseg : (s.gdt i).descriptor.IsSegment) :
    s.loadSeg cpu sel = .ok (s.setEntry i ((s.gdt i).mark 1)) := by
  rw [loadSeg, if_neg hnull, ht.selected hval hldt]
  exact if_pos hseg

/-- The two segments of the kernel can be loaded. -/
structure Loadable (cpu : Addr) (s : Machine) : Prop extends Tables cpu s where
  segment : ∀ i, i = kerCi ∨ i = kerDi → (s.gdt i).descriptor.IsSegment

theorem Loadable.mark (h : Loadable cpu s) : Loadable cpu (s.setEntry j ((s.gdt j).mark 1)) := by
  refine ⟨⟨h.limit, h.base⟩, fun i hi => ?_⟩
  by_cases hij : i = j
  · subst hij
    rw [setEntry_self, GdtEntry.mark_descriptor 1 _ rfl]
    exact h.segment i hi
  · rw [setEntry_of_ne hij]
    exact h.segment i hi

theorem Loadable.loadSeg (h : Loadable cpu s) (hsel : sel = kerCs ∨ sel = kerDs) :
    ∃ s', s.loadSeg cpu sel = .ok s' ∧ Loadable cpu s' := by
  rcases hsel with rfl | rfl
  · exact ⟨_, loadSeg_segment h.toTables (i := kerCi) rfl rfl (by decide) (h.segment _ (.inl rfl)), h.mark⟩
  · exact ⟨_, loadSeg_segment h.toTables (i := kerDi) rfl rfl (by decide) (h.segment _ (.inr rfl)), h.mark⟩

end Machine

/-- `init_gdt` returns, with its table loaded. -/
theorem initGdt_ok (cpu : Addr) (m : Machine) : ∃ s, initGdt cpu m = .ok s ∧ s.Tables cpu := by
  simp only [initGdt]
  generalize ht : ({ (((((m.setEntry nullI _).setEntry kerCi _).setEntry kerDi _).setEntry usrCi _).setEntry
    usrDi _) with gdtrLimit := _, gdtrBase := _ } : Machine) = t
  have hload : t.Loadable cpu := by
    subst ht
    refine ⟨⟨rfl, rfl⟩, ?_⟩
    rintro i (rfl | rfl)
    · show (GdtEntry.mk 0xFFFF 0x0000 0x00 0x9A 0xCF 0x00).descriptor.IsSegment
      decide
    · show (GdtEntry.mk 0xFFFF 0x0000 0x00 0x92 0xCF 0x00).descriptor.IsSegment
      decide
  obtain ⟨s₁, hcs, hs₁⟩ := hload.loadSeg (.inl rfl)
  obtain ⟨s₂, hds, hs₂⟩ := hs₁.loadSeg (.inr rfl)
  obtain ⟨s₃, hes, hs₃⟩ := hs₂.loadSeg (.inr rfl)
  obtain ⟨s₄, hfs, hs₄⟩ := hs₃.loadSeg (.inr rfl)
  obtain ⟨s₅, hgs, hs₅⟩ := hs₄.loadSeg (.inr rfl)
  obtain ⟨s₆, hss, hs₆⟩ := hs₅.loadSeg (.inr rfl)
  rw [hcs, ok_bind, hds, ok_bind, hes, ok_bind, hfs, ok_bind, hgs, ok_bind]
  exact ⟨s₆, hss, hs₆.toTables⟩

/-! ## `switch_uvm` -/

section SwitchUvm
variable {cpu : Addr} {s s' : Machine}

/-- The state after the `ltr` and the page directory. -/
def switched (cpu : Addr) (p : ProcStack) (s : Machine) : Machine :=
  { (atLtr cpu p s).setEntry tssI (((atLtr cpu p s).gdt tssI).mark 2) with tr := tssS, cr3 := v2p p.pgdir }

theorem atLtr_descriptor (cpu : Addr) (p : ProcStack) (s : Machine) :
    ((atLtr cpu p s).gdt tssI).descriptor = {
      base := tsAddr cpu
      limit := 103
      type := Descriptor.availableTss
      codeOrData := false
      dpl := 0
      present := true
      granular := false } := by
  have hlimit : (tssEntrySize - 1).extractLsb' 0 20 = 103 := by decide
  have haccess : (0x89 : Byte).extractLsb' 0 4 = Descriptor.availableTss ∧
      (0x89 : Byte).getLsbD 4 = false ∧ (0x89 : Byte).extractLsb' 5 2 = 0 ∧
      (0x89 : Byte).getLsbD 7 = true := by decide
  have hgranularity : (0x40 : Byte).getLsbD 7 = false := by decide
  obtain ⟨htype, hsystem, hdpl, hpresent⟩ := haccess
  simp only [atLtr]
  rw [setTssEntry_descriptor, hlimit, htype, hsystem, hdpl, hpresent, hgranularity]

theorem atLtr_of_ne {p : ProcStack} {i : Fin maxSegs} (hi : i ≠ tssI) : (atLtr cpu p s).gdt i = s.gdt i := by
  simp only [atLtr, setTssEntry]
  exact Machine.setEntry_of_ne hi

theorem switched_busy (cpu : Addr) (p : ProcStack) (s : Machine) :
    ((switched cpu p s).gdt tssI).descriptor.IsTss Descriptor.busyTss := by
  have hbusy : Descriptor.availableTss ||| (2 : Byte).extractLsb' 0 4 = Descriptor.busyTss := by decide
  simp only [switched]
  rw [Machine.setEntry_self, GdtEntry.mark_descriptor 2 _ rfl, atLtr_descriptor]
  exact ⟨rfl, rfl, hbusy⟩

theorem switched_of_ne {p : ProcStack} {i : Fin maxSegs} (hi : i ≠ tssI) :
    (switched cpu p s).gdt i = s.gdt i := by
  simp only [switched]
  rw [Machine.setEntry_of_ne hi, atLtr_of_ne hi]

/-- The `ltr` of `switch_uvm` finds an available task state segment. -/
theorem switchUvm_some {p : ProcStack} (ht : s.Tables cpu) (hkstack : p.kstack ≠ 0) (hpgdir : p.pgdir ≠ 0) :
    switchUvm cpu (some p) s = .ok (switched cpu p s) := by
  have htables : (atLtr cpu p s).Tables cpu := ⟨ht.limit, ht.base⟩
  have hltr : (atLtr cpu p s).ltr cpu tssS =
      .ok { (atLtr cpu p s).setEntry tssI (((atLtr cpu p s).gdt tssI).mark 2) with tr := tssS } := by
    rw [Machine.ltr, htables.selected (i := tssI) rfl rfl]
    refine if_pos (Or.inl ?_)
    rw [atLtr_descriptor]
    exact ⟨rfl, rfl, rfl⟩
  simp only [switchUvm]
  rw [if_neg hkstack, if_neg hpgdir, hltr, ok_bind]
  rfl

theorem switchUvm_cases {p : Option ProcStack} (ht : s.Tables cpu) (h : switchUvm cpu p s = .ok s') :
    ∃ q, p = some q ∧ q.kstack ≠ 0 ∧ q.pgdir ≠ 0 ∧ s' = switched cpu q s := by
  cases p with
  | none => cases h
  | some q =>
    by_cases hkstack : q.kstack = 0
    · simp only [switchUvm, if_pos hkstack] at h
      cases h
    by_cases hpgdir : q.pgdir = 0
    · simp only [switchUvm, if_neg hkstack, if_pos hpgdir] at h
      cases h
    rw [switchUvm_some ht hkstack hpgdir] at h
    exact ⟨q, rfl, hkstack, hpgdir, (Except.ok.inj h).symm⟩

/-- `ProcStack.switchUvm` is what `switch_uvm` does but for the tables. -/
theorem switchUvm_procStack {p : Option ProcStack} (ht : s.Tables cpu) (h : switchUvm cpu p s = .ok s') :
    ProcStack.switchUvm p = .ok (s'.ts.toTss, s'.cr3) := by
  obtain ⟨q, rfl, hkstack, hpgdir, rfl⟩ := switchUvm_cases ht h
  simp only [ProcStack.switchUvm]
  rw [if_neg hkstack, if_neg hpgdir]
  rfl

end SwitchUvm

/-! ## Runs -/

/-- What changes the tables after `init_gdt`: `switch_uvm`, and any load of a segment register in between, by
the kernel, by an interrupt or by a process. -/
inductive Event
  | switchUvm (p : Option ProcStack)
  | loadSeg (sel : Half)

/-- A step that returns. -/
def Step (cpu : Addr) (s : Machine) (e : Event) (s' : Machine) : Prop :=
  match e with
  | .switchUvm p => switchUvm cpu p s = .ok s'
  | .loadSeg sel => s.loadSeg cpu sel = .ok s'

/-- The CPU was told to load the entry `i` in one of the steps. -/
def Loaded (as : List Event) (i : Fin maxSegs) : Prop :=
  ∃ sel, Event.loadSeg sel ∈ as ∧ sel.toNat / 8 = i.val

/-- What a run leaves of the state `s₀` after `init_gdt`. -/
structure Kept (cpu : Addr) (s₀ : Machine) (as : List Event) (s : Machine) : Prop extends s.Tables cpu where
  entries : ∀ i, i ≠ tssI → ¬ Loaded as i → s.gdt i = s₀.gdt i
  accessed : ∀ i, i ≠ tssI → (s.gdt i).mark 1 = (s₀.gdt i).mark 1

theorem not_loaded_of_append {as bs : List Event} {i : Fin maxSegs} (h : ¬ Loaded (as ++ bs) i) :
    ¬ Loaded as i := fun ⟨sel, hmem, hval⟩ => h ⟨sel, List.mem_append_left bs hmem, hval⟩

theorem kept_step {cpu : Addr} {s₀ s s' : Machine} {as : List Event} {e : Event} (hs : Kept cpu s₀ as s)
    (hstep : Step cpu s e s') : Kept cpu s₀ (as ++ [e]) s' := by
  cases e with
  | switchUvm p =>
    obtain ⟨q, rfl, -, -, rfl⟩ := switchUvm_cases hs.toTables hstep
    refine ⟨⟨hs.limit, hs.base⟩, fun i hi hload => ?_, fun i hi => ?_⟩
    · rw [switched_of_ne hi]
      exact hs.entries i hi (not_loaded_of_append hload)
    · rw [switched_of_ne hi]
      exact hs.accessed i hi
  | loadSeg sel =>
    obtain rfl | ⟨j, hj, rfl⟩ := Machine.loadSeg_cases hstep
    · exact ⟨hs.toTables, fun i hi hload => hs.entries i hi (not_loaded_of_append hload), hs.accessed⟩
    · refine ⟨⟨hs.limit, hs.base⟩, fun i hi hload => ?_, fun i hi => ?_⟩
      · have hij : i ≠ j := by
          rintro rfl
          exact hload ⟨sel, by simp, hj.symm⟩
        rw [Machine.setEntry_of_ne hij]
        exact hs.entries i hi (not_loaded_of_append hload)
      · by_cases hij : i = j
        · subst hij
          rw [Machine.setEntry_self, GdtEntry.mark_mark]
          exact hs.accessed i hi
        · rw [Machine.setEntry_of_ne hij]
          exact hs.accessed i hi

theorem kept_run {cpu : Addr} {s₀ s : Machine} {as : List Event} (h₀ : s₀.Tables cpu)
    (hrun : Run (Step cpu) s₀ as s) : Kept cpu s₀ as s :=
  hrun.invariant ⟨h₀, fun _ _ _ => rfl, fun _ _ => rfl⟩ fun _ _ _ _ => kept_step

/-- What the CPU finds at an `ltr`, after the steps `as` from `s₀`. -/
structure AtLtr (cpu : Addr) (s₀ : Machine) (as : List Event) (p : ProcStack) (s : Machine) : Prop where
  base : (s.gdt tssI).descriptor.base = tsAddr cpu
  limit : (s.gdt tssI).descriptor.byteLimit = tssEntrySize.toNat - 1
  available : (s.gdt tssI).descriptor.IsTss Descriptor.availableTss
  esp0 : s.ts.esp0 = p.kstack + BitVec.ofNat 32 kstackSize
  entries : ∀ i, i ≠ tssI → ¬ Loaded as i → s.gdt i = s₀.gdt i
  /-- A load in between sets the accessed bit, and nothing else. -/
  accessed : ∀ i, i ≠ tssI → (s.gdt i).mark 1 = (s₀.gdt i).mark 1

theorem Kept.atLtr {cpu : Addr} {s₀ s : Machine} {as : List Event} (h : Kept cpu s₀ as s) (p : ProcStack) :
    AtLtr cpu s₀ as p (atLtr cpu p s) := by
  constructor
  case base => rw [atLtr_descriptor]
  case limit =>
    rw [atLtr_descriptor]
    rfl
  case available =>
    rw [atLtr_descriptor]
    exact ⟨rfl, rfl, rfl⟩
  case esp0 => rfl
  case entries =>
    intro i hi hload
    rw [atLtr_of_ne hi]
    exact h.entries i hi hload
  case accessed =>
    intro i hi
    rw [atLtr_of_ne hi]
    exact h.accessed i hi

/-- **The task state segment over switches.** After `init_gdt`, and any steps `as` since then, the `ltr` of
the next `switch_uvm` finds its segment available again, and leaves it busy. -/
theorem tss_at_every_ltr (cpu : Addr) (m : Machine) : ∃ s₀, initGdt cpu m = .ok s₀ ∧
    ∀ (as : List Event) (s : Machine), Run (Step cpu) s₀ as s →
      ∀ p : ProcStack, p.kstack ≠ 0 → p.pgdir ≠ 0 →
        AtLtr cpu s₀ as p (atLtr cpu p s) ∧
          ∃ s', switchUvm cpu (some p) s = .ok s' ∧
            (s'.gdt tssI).descriptor.IsTss Descriptor.busyTss := by
  obtain ⟨s₀, hinit, htables⟩ := initGdt_ok cpu m
  refine ⟨s₀, hinit, fun as s hrun p hkstack hpgdir => ?_⟩
  have hkept := kept_run htables hrun
  exact ⟨hkept.atLtr p, switched cpu p s, switchUvm_some hkept.toTables hkstack hpgdir,
    switched_busy cpu p s⟩

/-- The second switch, from an empty machine. -/
theorem tss_at_every_ltr_second :
    let entry : GdtEntry := ⟨0, 0, 0, 0, 0, 0⟩
    let m : Machine := ⟨fun _ => entry, ⟨⟨0, 0⟩, 0⟩, 0, 0, 0, 0⟩
    let p : ProcStack := ⟨1, .runnable, 0x80300000, 0x80200F00, 0x80200E00, 0x80200000⟩
    let q : ProcStack := ⟨2, .runnable, 0x80500000, 0x80400F00, 0x80400E00, 0x80400000⟩
    ∃ s₀ s₁, initGdt 0x80105000 m = .ok s₀ ∧ switchUvm 0x80105000 (some p) s₀ = .ok s₁ ∧
      (s₁.gdt tssI).descriptor.IsTss Descriptor.busyTss ∧
      AtLtr 0x80105000 s₀ [.switchUvm (some p)] q (atLtr 0x80105000 q s₁) := by
  intro entry m p q
  obtain ⟨s₀, hinit, hall⟩ := tss_at_every_ltr 0x80105000 m
  obtain ⟨-, s₁, hs₁, hbusy⟩ := hall [] s₀ .nil p (by decide) (by decide)
  have hrun : Run (Step 0x80105000) s₀ [.switchUvm (some p)] s₁ := Run.single hs₁
  exact ⟨s₀, s₁, hinit, hs₁, hbusy, (hall _ s₁ hrun q (by decide) (by decide)).1⟩

end Gdt

end TuixOS
