import TuixOS.Stop
import TuixOS.Kalloc
import TuixOS.CString

/-!
# Page tables: `kernel/mm/vm.c` and the MMU

The functions of `vm.c` that build address spaces, over the allocator's state, and the translation
the x86 MMU makes from the tables they leave in memory. `mem_info.kdata_start_addr` is a parameter
of `initKmappings`; the array `k_maps` it fills is a list handed on to `setupKvm`.
-/

namespace TuixOS

open Lib

/-- `struct kmap` -/
structure Kmap where
  virt : Addr
  physStart : Word
  physEnd : Word
  perm : Word

/-- The address of the entry for `va`, or 0. -/
def walkPgdir (pgdir va : Addr) (alloc : Bool) (s : Kmem) : Addr × Kmem :=
  let pde := pgdir + 4 * pdx va
  if load32 s.mem pde &&& pteP ≠ 0 then
    (p2v (pteAddr (load32 s.mem pde)) + 4 * ptx va, s)
  else if !alloc then (0, s)
  else
    let r := kalloc s
    let pgtab := r.1
    if pgtab = 0 then (0, r.2)
    else
      let m := (memset pgtab 0 pgSize r.2.mem).2
      let m := store32 m pde (v2p pgtab ||| pteP ||| pteW ||| pteU)
      (pgtab + 4 * ptx va, { r.2 with mem := m })

/-- The loop of `map_pages`, which ends when `start == last`. -/
def mapPagesLoop (pgdir last : Addr) (perm : Word) : Nat → Addr → Word → Kmem → Res (Int × Kmem)
  | 0, _, _, _ => .error .diverge
  | n + 1, start, pa, s =>
    let r := walkPgdir pgdir start true s
    let pte := r.1
    if pte = 0 then .ok (-1, r.2)
    else if load32 r.2.mem pte &&& pteP ≠ 0 then .error (.panic "映射到重复的空间了!")
    else
      let s := { r.2 with mem := store32 r.2.mem pte (pa ||| perm ||| pteP) }
      if start = last then .ok (0, s)
      else mapPagesLoop pgdir last perm n (start + pgSize) (pa + pgSize) s

/-- `start` steps through the pages of the address space, so `2^20` rounds always suffice. -/
def mapPages (pgdir va : Addr) (size pa perm : Word) (s : Kmem) : Res (Int × Kmem) :=
  let start := pgRoundDown va
  let last := pgRoundDown (va + size - 1)
  mapPagesLoop pgdir last perm (2 ^ 20) start pa s

/-- `k_maps` as `init_kmappings` sets it. -/
def initKmappings (kdataStartAddr : Word) : List Kmap :=
  [ -- I/O space
    { virt := kernBase, physStart := 0, physEnd := extMem, perm := pteW },
    -- kernel text and read-only data
    { virt := kernLink, physStart := v2p kernLink, physEnd := v2p kdataStartAddr, perm := 0 },
    -- kernel data and memory
    { virt := kdataStartAddr, physStart := v2p kdataStartAddr, physEnd := physTop, perm := pteW },
    -- device space, up to 2^32
    { virt := devSpace, physStart := devSpace, physEnd := 0, perm := pteW } ]

/-- The loop of `setup_kvm` over `k_maps`. -/
def setupKvmLoop (pgdir : Addr) : List Kmap → Kmem → Res Kmem
  | [], s => .ok s
  | k :: ks, s => do
    let (erro, s) ← mapPages pgdir k.virt (k.physEnd - k.physStart) k.physStart k.perm s
    if erro < 0 then throw (.panic "setup_kvm: map_pages映射出错")
    setupKvmLoop pgdir ks s

def setupKvm (kMaps : List Kmap) (s : Kmem) : Res (Addr × Kmem) :=
  let r := kalloc s
  let pgdir := r.1
  if pgdir = 0 then .ok (0, r.2)
  else do
    let s := { r.2 with mem := (memset pgdir 0 pgSize r.2.mem).2 }
    let s ← setupKvmLoop pgdir kMaps s
    return (pgdir, s)

/-- The result of `map_pages` is not looked at. -/
def initUvm (pgdir init : Addr) (size : Word) (s : Kmem) : Res Kmem :=
  if pgSize < size then .error (.panic "init_uvm: more than a page")
  else do
    let r := kalloc s
    let mem := r.1
    let s := { r.2 with mem := (memset mem 0 pgSize r.2.mem).2 }
    let (_, s) ← mapPages pgdir 0 pgSize (v2p mem) (pteW ||| pteU) s
    return { s with mem := (memmove mem init size s.mem).2 }

/-! ## The MMU -/

/-- The page-size bit of a directory entry; `CR4.PSE` is on since `kernel_entry.asm`. -/
def ptePS : Word := 0x080

/-- What the MMU finds for an address. With `CR0.WP` on, `writable` binds the kernel too. -/
structure Translation where
  pa : Word
  writable : Bool
  user : Bool
  deriving DecidableEq

def translate (m : Mem) (pgdir va : Addr) : Option Translation :=
  let pde := load32 m (pgdir + 4 * pdx va)
  if pde &&& pteP = 0 then none
  else if pde &&& ptePS ≠ 0 then
    some ⟨(pde &&& 0xFFC00000#32) ||| (va &&& 0x003FFFFF#32), pde &&& pteW ≠ 0, pde &&& pteU ≠ 0⟩
  else
    let pte := load32 m (p2v (pteAddr pde) + 4 * ptx va)
    if pte &&& pteP = 0 then none
    else some ⟨pteAddr pte ||| (va &&& 0xFFF#32), pde &&& pteW ≠ 0 ∧ pte &&& pteW ≠ 0,
      pde &&& pteU ≠ 0 ∧ pte &&& pteU ≠ 0⟩

end TuixOS
