import TuixOS.AddressSpaces
import TuixOS.KallocRun
import TuixOS.Multiboot2

/-!
# Memory initialisation in `kernel_main`

`kernel_main` decodes the boot information, gives the pages between the kernel and 4 MiB to the
allocator, builds the kernel's directory from them and switches to it, and then gives the allocator
the rest of memory. The first half runs on the directory of `kernel_entry.asm`, which maps 4 MiB
only (`EntryPgdir`).

`Frees` are the `kfree` calls of a `free_range` call, whether or not its loop ends. They are what
`kernel_main` gives to the allocator (`BootFrees`) and where it writes.
-/

namespace TuixOS

open Lib

structure BootState where
  kmem : Kmem
  memInfo : MemInfo
  kpgdir : Addr
  /-- The kernel address of the directory in `cr3`. -/
  cr3 : Addr

/-- A computation that does not return is one that runs forever. -/
def orDiverge {α : Type} : Option α → Res α
  | none => .error .diverge
  | some a => .ok a

def parseBootInfo (fuel : Nat) (k : KernelSymbols) (magic mbiAddr : Word) (b : BootState) :
    Res BootState := do
  let r ← orDiverge (parseMultiboot2Info fuel b.kmem.mem k magic mbiAddr b.memInfo)
  return { b with memInfo := r.2 }

def initPhysicalMemory (fuel : Nat) (vstart vend : Addr) (b : BootState) : Res BootState := do
  let s ← orDiverge (freeRange fuel vstart vend b.kmem)
  return { b with kmem := s }

/-- `lcr3(V2P(kpgdir))` puts the directory into use. `init_kvm` does not look whether there is one, and the
CPU does not find its next instruction on a null directory. -/
def initKvm (b : BootState) : Res BootState := do
  let (kpgdir, s) ← setupKvm (initKmappings b.memInfo.kdataStartAddr) b.kmem
  if kpgdir = 0 then throw .fault
  return { b with kmem := s, kpgdir := kpgdir, cr3 := kpgdir }

/-- The size is printed only. -/
def printKmemSize (fuel : Nat) (b : BootState) : Res BootState := do
  let _ ← orDiverge (kmemSize fuel b.kmem)
  return b

/-- The end of what the boot directory maps, `P2V(4*1024*1024)`. -/
def bootMapEnd : Addr := p2v 0x400000

/-- From the start of memory initialisation to `init_kvm`. -/
def initFirstHalf (fuel : Nat) (b : BootState) : Res BootState := do
  let b ← initPhysicalMemory fuel b.memInfo.kernelEndAddr bootMapEnd b
  let b ← printKmemSize fuel b
  let b ← initKvm b
  printKmemSize fuel b

/-- `kernel_main` up to `init_pic`, less the devices. -/
def kernelMain (fuel : Nat) (k : KernelSymbols) (magic mbiAddr : Word) (b : BootState) :
    Res BootState := do
  let b ← parseBootInfo fuel k magic mbiAddr b
  let b ← initFirstHalf fuel b
  let b ← initPhysicalMemory fuel bootMapEnd (p2v physTop) b
  printKmemSize fuel b

/-- The globals before `kernel_main`, over memory `m` and on the directory `entrypgdir`. -/
def BootState.init (m : Mem) (entrypgdir : Addr) : BootState :=
  ⟨⟨m, 0⟩, MemInfo.zero, 0, entrypgdir⟩

/-! ## The `kfree` calls of `free_range` -/

/-- The heads of the loop of `free_range` that starts at `p` in the state `s`. -/
inductive LoopHead (vend p : Addr) (s : Kmem) : Addr → Kmem → Prop
  | start : LoopHead vend p s p s
  | next {q : Addr} {t : Kmem} (h : LoopHead vend p s q t) (hloop : q + pgSize ≤ vend) :
      LoopHead vend p s (q + pgSize) (kfree q t)

/-- `free_range(vstart, vend)` in the state `s` calls `kfree(q)` in the state `t`. -/
def Frees (vstart vend : Addr) (s : Kmem) (q : Addr) (t : Kmem) : Prop :=
  LoopHead vend (pgRoundUp vstart) s q t ∧ q + pgSize ≤ vend

/-- `free_range` ends in a head of its loop. -/
theorem freeRangeLoop_head {vend : Addr} : ∀ {fuel : Nat} {p : Addr} {s s' : Kmem},
    freeRangeLoop fuel p vend s = some s' → ∃ q, LoopHead vend p s q s' := by
  intro fuel
  induction fuel with
  | zero =>
    intro p s s' hrun
    cases hrun
  | succ fuel ih =>
    intro p s s' hrun
    rw [freeRangeLoop] at hrun
    split_ifs at hrun with hloop
    · obtain ⟨q, hq⟩ := ih hrun
      refine ⟨q, ?_⟩
      have hfirst := LoopHead.next LoopHead.start (s := s) hloop
      clear hrun
      induction hq with
      | start => exact hfirst
      | next _ hloop' ih' => exact ih'.next hloop'
    · cases hrun
      exact ⟨p, .start⟩

/-- What a loop that has not wrapped around has done: it has written only the pages from `p` up to
its head. -/
theorem LoopHead.writes_below {vend p q : Addr} {s t : Kmem} (h : LoopHead vend p s q t)
    (hal : PageAligned p) (hp : p.toNat ≤ 0xFFFFE000) (hend : vend.toNat < 0xFFFFF000) :
    PageAligned q ∧ p.toNat ≤ q.toNat ∧ q.toNat ≤ 0xFFFFE000 ∧
      ∀ x : Addr, x.toNat < p.toNat ∨ q.toNat ≤ x.toNat → t.mem x = s.mem x := by
  induction h with
  | start => exact ⟨hal, le_refl _, hp, fun _ _ => rfl⟩
  | @next q t _ hloop ih =>
    obtain ⟨halq, hle, htop, hmem⟩ := ih
    have hlt := (loop_test htop).mp hloop
    have hnext : (q + pgSize).toNat = q.toNat + 4096 := by
      rw [BitVec.toNat_add, pgSize_toNat]
      omega
    have hal' := halq.add_pgSize
    refine ⟨hal', by omega, ?_, fun x hx => ?_⟩
    · unfold PageAligned at hal'
      omega
    · rw [kfree_outside halq t x, hmem x (by omega)]
      intro he
      have hnat := congrArg BitVec.toNat he
      rw [pgRoundDown_toNat] at hnat
      omega

/-! ## What boot gives to the allocator -/

/-- `kernel_main` puts the page `p` on the free list in one of its two `init_physical_memory`
calls. -/
inductive BootFrees (k : KernelSymbols) (magic mbiAddr : Word) (b : BootState) (p : Addr) : Prop
  | first {fuel : Nat} {b₁ : BootState} {t : Kmem}
      (hparse : parseBootInfo fuel k magic mbiAddr b = .ok b₁)
      (hfree : Frees b₁.memInfo.kernelEndAddr bootMapEnd b₁.kmem p t)
  | second {fuel fuel₁ : Nat} {b₁ b₂ : BootState} {t : Kmem}
      (hparse : parseBootInfo fuel k magic mbiAddr b = .ok b₁)
      (hfirst : initFirstHalf fuel₁ b₁ = .ok b₂)
      (hfree : Frees bootMapEnd (p2v physTop) b₂.kmem p t)

/-- The page at `p` has a byte of the kernel image. -/
def OverlapsKernel (k : KernelSymbols) (p : Addr) : Prop :=
  p.toNat < k.kernelEnd.toNat ∧ k.kernelStart.toNat < p.toNat + 4096

/-- Where the linker script places the kernel. -/
structure Linked (k : KernelSymbols) : Prop where
  start : k.kernelStart = kernLink
  nonempty : k.kernelStart < k.kernelEnd

theorem orDiverge_eq_ok {α : Type} {x : Option α} {a : α} : orDiverge x = .ok a ↔ x = some a := by
  cases x <;> simp [orDiverge]

theorem parseBootInfo_eq_ok {fuel : Nat} {k : KernelSymbols} {magic mbiAddr : Word}
    {b b₁ : BootState} : parseBootInfo fuel k magic mbiAddr b = .ok b₁ ↔
      ∃ r, parseMultiboot2Info fuel b.kmem.mem k magic mbiAddr b.memInfo = some r ∧
        b₁ = { b with memInfo := r.2 } := by
  rw [parseBootInfo, bind_eq_ok]
  simp only [orDiverge_eq_ok]
  exact exists_congr fun r => and_congr_right fun _ => ⟨fun h => by cases h; rfl, fun h => h ▸ rfl⟩

/-- With the right magic the parser leaves the linker's symbols. -/
theorem parseMultiboot2Info_kernelEnd {fuel : Nat} {m : Mem} {k : KernelSymbols} {addr : Word}
    {mi : MemInfo} {r : List Addr × MemInfo}
    (h : parseMultiboot2Info fuel m k multiboot2BootloaderMagic addr mi = some r) :
    r.2.kernelEndAddr = k.kernelEnd ∧ r.2.kdataStartAddr = k.kernelDataStart := by
  rw [parseMultiboot2Info, if_neg (fun hne => hne rfl)] at h
  obtain ⟨a, -, hret⟩ := Option.bind_eq_some_iff.mp h
  cases hret
  exact ⟨rfl, rfl⟩

/-- A boot information that has nothing but its end tag. -/
theorem parseBootInfo_noTags {k : KernelSymbols} {mbiAddr : Word} {b : BootState}
    (htag : load32 b.kmem.mem (mbiAddr + 8) = multibootTagTypeEnd) :
    parseBootInfo 1 k multiboot2BootloaderMagic mbiAddr b =
      .ok { b with memInfo := parseKernelInfo k b.memInfo } := by
  refine parseBootInfo_eq_ok.mpr ⟨([], parseKernelInfo k b.memInfo), ?_, rfl⟩
  rw [parseMultiboot2Info, if_neg (fun hne => hne rfl), parseTagsLoop, if_pos htag]
  rfl

section Allocator
variable {k : KernelSymbols} {magic mbiAddr : Word} {m : Mem} {entrypgdir : Addr}

theorem bootMapEnd_toNat : bootMapEnd.toNat = 0x80400000 := rfl

/-- Of a range that starts below the last two pages of the address space, every page freed starts no lower
than the range. -/
theorem Frees.bounds {vstart vend q : Addr} {s t : Kmem} (h : Frees vstart vend s q t)
    (hstart : vstart.toNat ≤ 0xFFFFE000) (hend : vend.toNat < 0xFFFFF000) :
    PageAligned q ∧ vstart.toNat ≤ q.toNat ∧ q.toNat + 4096 ≤ vend.toNat := by
  have hup := pgRoundUp_toNat vstart
  obtain ⟨hal, hle, htop, -⟩ := h.1.writes_below (pageAligned_pgRoundUp vstart) (by omega) hend
  exact ⟨hal, by omega, (loop_test htop).mp h.2⟩

/-- A range that starts above its end has no page. -/
theorem freeRange_above {vstart vend : Addr} {fuel : Nat} {s s' : Kmem} (habove : vend < vstart)
    (htop : vstart.toNat ≤ 0xFFFFE000) (hrun : freeRange fuel vstart vend s = some s') : s' = s := by
  have hlt : vend.toNat < vstart.toNat := habove
  have hup := pgRoundUp_toNat vstart
  have hloop : ¬pgRoundUp vstart + pgSize ≤ vend := by
    rw [loop_test (by omega)]
    omega
  rw [freeRange] at hrun
  cases fuel with
  | zero => cases hrun
  | succ fuel =>
    rw [freeRangeLoop, if_neg hloop] at hrun
    exact (Option.some.inj hrun).symm

theorem initKvm_empty {b b' : BootState} (hempty : b.kmem.freelist = 0) : initKvm b ≠ .ok b' := by
  have hnull : kalloc b.kmem = (0, b.kmem) := by
    rw [kalloc, if_neg (not_not.mpr hempty), hempty]
  intro hrun
  simp only [initKvm, setupKvm, hnull] at hrun
  cases hrun

/-- A kernel that reaches above 4 MiB leaves no page for `init_kvm`. -/
theorem initFirstHalf_fits {fuel : Nat} {b b₂ : BootState} (hempty : b.kmem.freelist = 0)
    (htop : b.memInfo.kernelEndAddr.toNat ≤ 0xFFFFE000) (hrun : initFirstHalf fuel b = .ok b₂) :
    b.memInfo.kernelEndAddr ≤ bootMapEnd := by
  by_contra hbig
  obtain ⟨b', hfree, hrest⟩ := bind_eq_ok.mp hrun
  obtain ⟨s, hrange, hb'⟩ := bind_eq_ok.mp hfree
  obtain rfl := Except.ok.inj hb'
  have hnone := freeRange_above (BitVec.not_le.mp hbig) htop (orDiverge_eq_ok.mp hrange)
  obtain ⟨b₃, hprint, hrest⟩ := bind_eq_ok.mp hrest
  obtain ⟨_, -, hb₃⟩ := bind_eq_ok.mp hprint
  obtain rfl := Except.ok.inj hb₃
  obtain ⟨b₄, hkvm, -⟩ := bind_eq_ok.mp hrest
  exact initKvm_empty (hnone ▸ hempty) hkvm

/-- With the right magic the kernel stays out of the allocator. -/
theorem BootFrees.outside {p : Addr} (hlink : Linked k) (htop : k.kernelEnd ≤ p2v physTop)
    (h : BootFrees k multiboot2BootloaderMagic mbiAddr (BootState.init m entrypgdir) p) :
    p ≠ 0 ∧ ¬OverlapsKernel k p := by
  have hstart : kernLink < k.kernelEnd := hlink.start ▸ hlink.nonempty
  have hstart' : 0x80100000 < k.kernelEnd.toNat := hstart
  have htop' : k.kernelEnd.toNat ≤ 0x8E000000 := htop
  have hle : k.kernelEnd.toNat ≤ p.toNat := by
    cases h with
    | first hparse hfree =>
      obtain ⟨r, hr, rfl⟩ := parseBootInfo_eq_ok.mp hparse
      have hbounds := hfree.bounds
      simp only [(parseMultiboot2Info_kernelEnd hr).1] at hbounds
      exact (hbounds (by omega) (by decide)).2.1
    | second hparse hfirst hfree =>
      obtain ⟨r, hr, rfl⟩ := parseBootInfo_eq_ok.mp hparse
      have hend := (parseMultiboot2Info_kernelEnd hr).1
      have hfit : k.kernelEnd ≤ bootMapEnd := hend ▸ initFirstHalf_fits rfl (by rw [hend]; omega) hfirst
      have hfit' : k.kernelEnd.toNat ≤ 0x80400000 := hfit
      exact hfit'.trans (hfree.bounds (by decide) (by decide)).2.1
  refine ⟨?_, fun hover => ?_⟩
  · rintro rfl
    change k.kernelEnd.toNat ≤ 0 at hle
    omega
  · have hlow := hover.1
    omega

/-- A rejected boot information leaves `kernel_end_addr` 0, and the first page freed is page 0. -/
theorem bootFrees_zero (hmagic : magic ≠ multiboot2BootloaderMagic) :
    BootFrees k magic mbiAddr (BootState.init m entrypgdir) 0 := by
  have hparse : parseBootInfo 0 k magic mbiAddr (BootState.init m entrypgdir) =
      .ok (BootState.init m entrypgdir) := by
    refine parseBootInfo_eq_ok.mpr ⟨([], MemInfo.zero), if_pos hmagic, rfl⟩
  have hzero : pgRoundUp 0 = 0 := by decide
  refine .first hparse (t := (BootState.init m entrypgdir).kmem) ⟨?_, by decide⟩
  show LoopHead bootMapEnd (pgRoundUp 0) _ 0 _
  rw [hzero]
  exact .start

/-- **What boot gives to the allocator.** For every boot information, page 0 and the pages of the kernel stay
out of the allocator exactly when the boot information was accepted. The kernel is one that memory has room
for. -/
theorem boot_allocator_iff (hlink : Linked k) (htop : k.kernelEnd ≤ p2v physTop) :
    (∀ p, BootFrees k magic mbiAddr (BootState.init m entrypgdir) p →
        p ≠ 0 ∧ ¬OverlapsKernel k p) ↔
      magic = multiboot2BootloaderMagic := by
  constructor
  · intro h
    by_contra hne
    exact (h 0 (bootFrees_zero hne)).1 rfl
  · rintro rfl p hp
    exact hp.outside hlink htop

end Allocator

/-- A kernel of 1 MiB. -/
def smallKernel : KernelSymbols where
  kernelStart := 0x80100000
  kernelTextStart := 0x80100018
  kernelTextEnd := 0x80108000
  kernelRodataStart := 0x80108000
  kernelRodataEnd := 0x8010A000
  kernelDataStart := 0x8010A000
  kernelDataEnd := 0x8010E000
  kernelBssStart := 0x8010E000
  kernelBssEnd := 0x80200000
  kernelEnd := 0x80200000

theorem linked_smallKernel : Linked smallKernel := ⟨rfl, by decide⟩

/-- A boot information at 0x1000 that has no tags. -/
def noTags : Mem := fun _ => 0

/-- The first page behind the kernel is freed, and the first of its own is not. -/
theorem boot_allocator_iff_small :
    BootFrees smallKernel multiboot2BootloaderMagic 0x1000 (BootState.init noTags 0x8010A000) 0x80200000 ∧
      ¬OverlapsKernel smallKernel 0x80200000 ∧
      ¬BootFrees smallKernel multiboot2BootloaderMagic 0x1000 (BootState.init noTags 0x8010A000)
        0x80100000 := by
  have hkept : ∀ p, BootFrees smallKernel multiboot2BootloaderMagic 0x1000
      (BootState.init noTags 0x8010A000) p → p ≠ 0 ∧ ¬OverlapsKernel smallKernel p :=
    (boot_allocator_iff linked_smallKernel (by decide)).mpr rfl
  have hfreed : BootFrees smallKernel multiboot2BootloaderMagic 0x1000
      (BootState.init noTags 0x8010A000) 0x80200000 :=
    .first (parseBootInfo_noTags (by decide)) ⟨.start, by decide⟩
  exact ⟨hfreed, (hkept _ hfreed).2, fun hfrees => (hkept _ hfrees).2 ⟨by decide, by decide⟩⟩

/-- Started by a Multiboot 1 loader, `kernel_main` prints its message, goes on and frees page 0. -/
theorem boot_without_multiboot2 :
    (∃ fuel b₁, parseBootInfo fuel smallKernel 0x2BADB002 0
      (BootState.init (fun _ => 0) 0x8010A000) = .ok b₁) ∧
    ¬∀ p, BootFrees smallKernel 0x2BADB002 0 (BootState.init (fun _ => 0) 0x8010A000) p →
      p ≠ 0 ∧ ¬OverlapsKernel smallKernel p := by
  refine ⟨⟨0, _, parseBootInfo_eq_ok.mpr ⟨([], MemInfo.zero), if_pos (by decide), rfl⟩⟩, ?_⟩
  intro h
  exact (h 0 (bootFrees_zero (by decide))).1 rfl

end TuixOS
