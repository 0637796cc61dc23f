import TuixOS.Syscall

/-!
# The descriptor of `sys_write`: `kernel/sys/sysfile.c`

The bounds check at the head of `sys_write` is commented out, so the descriptor goes into the file table as
it comes from the user, and what it finds there is dereferenced. With a record of these reads, the
descriptor is checked just when it was a good one (`descriptor_checked_iff`).
-/

namespace TuixOS

open Lib

/-- The length of `ofile`. -/
def ofileNum : Nat := 16

/-- What `sys_write` reads: an element of `ofile`, and the `ref` of a `struct file`. -/
inductive FileRead
  | slot (fd : Int)
  | ref (file : Addr)

structure WriteRun where
  reads : List FileRead
  ret : Word

/-- `sysWrite` with a record of its reads, in order. -/
def sysWriteRun (proc : Addr) (m : Mem) (fd _buf count : Word) : WriteRun :=
  let file := load32 m (proc + 56 + 4 * fd)
  let ret := if load32 m file = 0 then -1 else count
  ⟨[.slot fd.toInt, .ref file], ret⟩

theorem sysWriteRun_ret (proc : Addr) (m : Mem) (fd buf count : Word) :
    (sysWriteRun proc m fd buf count).ret = sysWrite proc m fd buf count := rfl

/-- The descriptor names an element of `ofile`. -/
def InTable (fd : Int) : Prop := 0 ≤ fd ∧ fd < ofileNum

instance (fd : Int) : Decidable (InTable fd) := inferInstanceAs (Decidable (_ ∧ _))

/-- The reads stay in `ofile` and follow no null pointer, and the call fails unless the descriptor is one of
an open file. -/
structure DescriptorChecked (proc : Addr) (m : Mem) (fd buf count : Word) : Prop where
  slot : ∀ i, .slot i ∈ (sysWriteRun proc m fd buf count).reads → InTable i
  ref : ∀ file, .ref file ∈ (sysWriteRun proc m fd buf count).reads → file ≠ 0
  ret : ¬(InTable fd.toInt ∧ load32 m (proc + 56 + 4 * fd) ≠ 0 ∧
    load32 m (load32 m (proc + 56 + 4 * fd)) ≠ 0) → (sysWriteRun proc m fd buf count).ret = -1

section Descriptor
variable (proc : Addr) (m : Mem) (fd buf count : Word)

theorem mem_reads_slot (i : Int) :
    .slot i ∈ (sysWriteRun proc m fd buf count).reads ↔ i = fd.toInt := by
  simp [sysWriteRun]

theorem mem_reads_ref (file : Addr) :
    .ref file ∈ (sysWriteRun proc m fd buf count).reads ↔ file = load32 m (proc + 56 + 4 * fd) := by
  simp [sysWriteRun]

/-- The check that `sys_write` makes rejects a file without references. -/
theorem sysWrite_unreferenced (h : load32 m (load32 m (proc + 56 + 4 * fd)) = 0) :
    sysWrite proc m fd buf count = -1 := if_pos h

/-- The descriptor is checked just when it names an element of `ofile` that is not null. -/
theorem descriptorChecked_iff_inTable : DescriptorChecked proc m fd buf count ↔
    InTable fd.toInt ∧ load32 m (proc + 56 + 4 * fd) ≠ 0 := by
  constructor
  · rintro ⟨hslot, href, -⟩
    exact ⟨hslot _ ((mem_reads_slot ..).mpr rfl), href _ ((mem_reads_ref ..).mpr rfl)⟩
  · rintro ⟨hfd, hfile⟩
    refine ⟨fun i hi => ?_, fun file h => ?_, fun hbad => ?_⟩
    · rw [mem_reads_slot] at hi
      rwa [hi]
    · rw [mem_reads_ref] at h
      rwa [h]
    · rw [sysWriteRun_ret]
      refine sysWrite_unreferenced proc m fd buf count ?_
      by_contra hne
      exact hbad ⟨hfd, hfile, hne⟩

/-- `sys_open` returns no element of `ofile`. -/
theorem sysOpen_not_inTable (path mode : Word) : ¬InTable (sysOpen path mode).toInt := by
  unfold sysOpen
  decide

/-- **The descriptor.** The call is as it should be just when the descriptor names an element of `ofile` that
is not null, so never with what `sys_open` returns. -/
theorem descriptor_checked_iff :
    (DescriptorChecked proc m fd buf count ↔
      InTable fd.toInt ∧ load32 m (proc + 56 + 4 * fd) ≠ 0) ∧
    ∀ path mode, ¬DescriptorChecked proc m (sysOpen path mode) buf count := by
  refine ⟨descriptorChecked_iff_inTable proc m fd buf count, fun path mode h => ?_⟩
  exact sysOpen_not_inTable path mode ((descriptorChecked_iff_inTable ..).mp h).1

end Descriptor

/-- No file is open, and there is code of the user at address 0. -/
def noFiles : Mem := fun x => if x = 0 then 0xB8 else 0

/-- Descriptor 0 of a process without files: the user's code is taken for the reference count. -/
theorem descriptor_unchecked : ¬DescriptorChecked 0x80110000 noFiles 0 0x10 5 ∧
    sysWrite 0x80110000 noFiles 0 0x10 5 = 5 := by
  constructor
  · intro h
    exact h.ref 0 ((mem_reads_ref ..).mpr (by decide)) rfl
  · decide

end TuixOS
