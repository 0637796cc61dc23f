import TuixOS.Switch
import TuixOS.Process
import TuixOS.Kalloc
import TuixOS.CString

/-!
# The first launch of a process: `config_proc_kstack`

The stack that `config_proc_kstack` makes up is taken apart by code that has not put it there: the
pops and `ret` of `switch_to`, the `ret` of `fork_ret`, and `trap_ret`. `configProcKstack_stack` has
the words that count, `first_launch` follows the CPU through the three of them.
-/

namespace TuixOS

open Lib

/-- `KSTACK_SIZE` -/
def kstackSize : Nat := 4096

/-- The fields of `struct proc` for its kernel stack and what it runs in. -/
structure ProcStack where
  pid : Int
  state : ProcState
  pgdir : Addr
  tf : Addr
  ctx : Addr
  kstack : Addr

/-- What `config_proc_kstack` works on: the `struct proc` it is given, `next_pid` and memory. -/
structure Launching where
  proc : ProcStack
  nextPid : Int
  kmem : Kmem

namespace Launching

/-- `true` is the pointer it was given, `false` null. The addresses are those of `fork_ret` and
`trap_ret`. -/
def configProcKstack (forkRetAddr trapRetAddr : Word) (s : Launching) : Res (Bool × Launching) :=
  let proc := { s.proc with state := .embryo }
  if s.nextPid = intMax then .error .overflow
  else
    let proc := { proc with pid := s.nextPid }
    let (kstack, kmem) := kalloc s.kmem
    let proc := { proc with kstack := kstack }
    if kstack = 0 then
      .ok (false, ⟨{ proc with state := .unused }, s.nextPid + 1, kmem⟩)
    else
      let sp := kstack + BitVec.ofNat 32 kstackSize
      let sp := sp - BitVec.ofNat 32 trapFrameSize
      let proc := { proc with tf := sp }
      let sp := sp - 4
      let m := store32 kmem.mem sp trapRetAddr
      let sp := sp - BitVec.ofNat 32 contextSize
      let proc := { proc with ctx := sp }
      let m := (memset sp 0 (BitVec.ofNat 32 contextSize) m).2
      let m := store32 m (sp + 16) forkRetAddr
      .ok (true, ⟨proc, s.nextPid + 1, { kmem with mem := m }⟩)

variable {forkRetAddr trapRetAddr : Word} {s s' : Launching}

/-- The page of the kernel stack. -/
def page (s : Launching) : Set Addr := {x | (x - s.proc.kstack).toNat < kstackSize}

/-- What a call that returns the process has done. -/
theorem configProcKstack_ok (h : configProcKstack forkRetAddr trapRetAddr s = .ok (true, s')) :
    s'.proc.kstack = (kalloc s.kmem).1 ∧
      s'.proc.tf = s'.proc.kstack + 4020 ∧ s'.proc.ctx = s'.proc.kstack + 3996 ∧
      s'.kmem.mem = store32 (memset s'.proc.ctx 0 20 (store32 s.kmem.mem (s'.proc.kstack + 4016)
        trapRetAddr)).2 (s'.proc.kstack + 4012) forkRetAddr := by
  simp only [configProcKstack, kalloc_mem] at h
  split_ifs at h with hpid hk
  · cases h
  · cases h
    generalize (kalloc s.kmem).1 = k
    have htf : k + BitVec.ofNat 32 kstackSize - BitVec.ofNat 32 trapFrameSize = k + 4020 := by
      unfold kstackSize trapFrameSize
      bv_omega
    have hword : k + 4020 - 4 = k + 4016 := by bv_omega
    have hctx : k + 4016 - BitVec.ofNat 32 contextSize = k + 3996 := by
      unfold contextSize
      bv_omega
    have heip : k + 3996 + 16 = k + 4012 := by bv_omega
    refine ⟨rfl, htf, ?_, ?_⟩
    · simp only [htf, hword, hctx]
    · simp only [htf, hword, hctx, heip]
      rfl

/-- The two words that the launch returns through. -/
theorem configProcKstack_stack (h : configProcKstack forkRetAddr trapRetAddr s = .ok (true, s'))
    (hpage : PageAligned s'.proc.kstack) :
    load32 s'.kmem.mem (s'.proc.ctx + 16) = forkRetAddr ∧
      load32 s'.kmem.mem (s'.proc.ctx + 20) = trapRetAddr := by
  obtain ⟨-, -, hctx, hmem⟩ := configProcKstack_ok h
  generalize s'.proc.kstack = k at hpage hctx hmem
  have hne : k + 3996 ≠ 0 := by
    unfold PageAligned at hpage
    bv_omega
  have heip : k + 3996 + 16 = k + 4012 := by bv_omega
  have hret : k + 3996 + 20 = k + 4016 := by bv_omega
  rw [hmem, hctx, heip, hret]
  refine ⟨load32_store32 .., ?_⟩
  rw [load32_store32_ne _ _ _ _ (by bv_omega) (by bv_omega)]
  -- the context is cleared below the word
  have hset : load32 (memset (k + 3996) 0 20 (store32 s.kmem.mem (k + 4016) trapRetAddr)).2
      (k + 4016) = load32 (store32 s.kmem.mem (k + 4016) trapRetAddr) (k + 4016) :=
    load32_of_cell fun x hx => by
      have hx' : (x - (k + 4016)).toNat < 4 := hx
      rw [memset_apply hne, if_neg (by bv_omega)]
  rw [hset, load32_store32]

/-- It writes to its page only. -/
theorem configProcKstack_outside (h : configProcKstack forkRetAddr trapRetAddr s = .ok (true, s'))
    (hpage : PageAligned s'.proc.kstack) {x : Addr} (hx : x ∉ s'.page) :
    s'.kmem.mem x = s.kmem.mem x := by
  obtain ⟨-, htf, hctx, hmem⟩ := configProcKstack_ok h
  have hx' : ¬(x - s'.proc.kstack).toNat < 4096 := hx
  have hne : s'.proc.kstack + 3996 ≠ 0 := by
    unfold PageAligned at hpage
    bv_omega
  rw [hmem, hctx, store32_outside _ _ _ _ (by bv_omega), memset_apply hne, if_neg (by bv_omega),
    store32_outside _ _ _ _ (by bv_omega)]

/-- On the fields that scheduling reads it is the `configProcKstack` of the process machine. -/
theorem configProcKstack_refines {K : Type} [DecidableEq K] {t : Kernel K} (q : Slot) {b : Bool}
    (hpid : t.nextPid = s.nextPid) (h : configProcKstack forkRetAddr trapRetAddr s = .ok (b, s')) :
    ∃ r t', TuixOS.configProcKstack (kalloc s.kmem).1 q t = .ok (r, t') ∧ r.isSome = b ∧
      t'.nextPid = s'.nextPid ∧ (t'.proc q).pid = s'.proc.pid ∧
      (t'.proc q).state = s'.proc.state ∧ (t'.proc q).kstack = s'.proc.kstack := by
  simp only [configProcKstack] at h
  split_ifs at h with hmax hk
  all_goals
    cases h
    rw [TuixOS.configProcKstack, hpid, if_neg hmax]
  · rw [if_pos hk]
    exact ⟨_, _, rfl, rfl, rfl, by simp [Kernel.setState], by simp [Kernel.setState],
      by simp [Kernel.setState]⟩
  · rw [if_neg hk]
    exact ⟨_, _, rfl, rfl, rfl, by simp [Kernel.goto], by simp [Kernel.goto], by simp [Kernel.goto]⟩

end Launching

/-! ## The launch -/

/-- A frame read from memory that agrees on its bytes. -/
theorem readFrame_congr {m m' : Mem} {a : Addr}
    (h : ∀ x, (x - a).toNat < trapFrameSize → m' x = m x) : readFrame m' a = readFrame m a := by
  have hload : ∀ k : Addr, k.toNat + 4 ≤ trapFrameSize → load32 m' (a + k) = load32 m (a + k) :=
    fun _ hk => load32_within m a h hk
  have hzero : load32 m' a = load32 m a := load32_of_cell fun x hx => h x (Nat.lt_trans hx (by decide))
  simp only [readFrame, load16_eq, hzero]
  simp (disch := decide) only [hload]

/-- The function that `c` has entered has returned to the address on the stack, `void` and with no
arguments; above it there is a frame, which is the caller's. -/
structure Returned (c d : X86) : Prop where
  eip : d.eip = load32 c.mem c.esp
  esp : d.esp = c.esp + 4
  cs : d.cs = c.cs
  frame : ∀ x, (x - (c.esp + 4)).toNat < trapFrameSize → d.mem x = c.mem x

/-- **First launch.** Whatever fills the frame, with a `cs` for user mode, `switch_to` enters
`fork_ret`, which returns to `trap_ret` at the frame, and `iret` leaves the CPU as the frame has it
and nothing on the stack. -/
theorem first_launch {forkRetAddr trapRetAddr : Word} {s s' : Launching} {c d : X86}
    (hconf : Launching.configProcKstack forkRetAddr trapRetAddr s = .ok (true, s'))
    (hpage : PageAligned s'.proc.kstack)
    (hstack : ∀ x, (x - s'.proc.ctx).toNat < contextSize + 4 → c.mem x = s'.kmem.mem x)
    (hframe : X86.cpl (readFrame c.mem s'.proc.tf).cs = 3) (hcpl : X86.cpl c.cs = 0)
    (hnext : c.nextArg = s'.proc.ctx) (hapart : Disjoint (contextBytes c ∪ cell c.prevArg) s'.page)
    (hret : Returned c.switchTo d) :
    c.switchTo.eip = forkRetAddr ∧
      d.eip = trapRetAddr ∧ d.esp = s'.proc.tf ∧
      d.trapRet = (readFrame c.mem s'.proc.tf).resume d.mem ∧
      d.atIret.esp + 20 = s'.proc.kstack + BitVec.ofNat 32 kstackSize ∧
      ∀ x, x ∉ s'.page → s'.kmem.mem x = s.kmem.mem x := by
  obtain ⟨hfork, htrap⟩ := Launching.configProcKstack_stack hconf hpage
  obtain ⟨-, htf, hctx, -⟩ := Launching.configProcKstack_ok hconf
  -- the save of the scheduler leaves the page of the new stack
  have hsave : ∀ x ∈ s'.page, c.switchTo.mem x = c.mem x := by
    intro x hx
    have hx' := Set.disjoint_right.mp hapart hx
    rw [Set.mem_union, not_or] at hx'
    exact X86.switchTo_outside hx'.1 hx'.2
  have hword : ∀ x, (x - s'.proc.ctx).toNat < contextSize + 4 →
      c.switchTo.mem x = s'.kmem.mem x := by
    intro x hx
    refine (hsave x ?_).trans (hstack x hx)
    have hx' : (x - s'.proc.ctx).toNat < 24 := hx
    show (x - s'.proc.kstack).toNat < 4096
    rw [hctx] at hx'
    bv_omega
  have hres := X86.switchTo_restores c
  rw [hnext] at hres
  have heip : c.switchTo.eip = forkRetAddr := by
    rw [hres.eip, ← hfork]
    exact load32_within _ _ hword (by decide)
  have hesp : c.switchTo.esp = s'.proc.ctx + 20 := hres.esp
  have hdeip : d.eip = trapRetAddr := by
    rw [hret.eip, hesp, ← htrap]
    exact load32_within _ _ hword (by decide)
  have hdesp : d.esp = s'.proc.tf := by
    rw [hret.esp, hesp, hctx, htf]
    bv_omega
  -- the frame goes through the save and through `fork_ret`
  have hkept : readFrame d.mem d.esp = readFrame c.mem s'.proc.tf := by
    rw [hdesp]
    refine readFrame_congr fun x hx => (hret.frame x ?_).trans (hsave x ?_)
    · rwa [← hret.esp, hdesp]
    · have hx' : (x - s'.proc.tf).toNat < 76 := hx
      show (x - s'.proc.kstack).toNat < 4096
      rw [htf] at hx'
      bv_omega
  have hcs : d.cs = c.cs := hret.cs
  refine ⟨heip, hdeip, hdesp, ?_, ?_, fun x hx => Launching.configProcKstack_outside hconf hpage hx⟩
  · rw [← hkept]
    refine X86.trapRet_resume ?_
    rw [hkept, hframe, hcs, hcpl]
    decide
  · show d.esp + 32 + 16 + 8 + 20 = s'.proc.kstack + 4096
    rw [hdesp, htf]
    bv_omega

/-- The first process, its stack at `0x80400000`. -/
def firstLaunching : Launching where
  proc := ⟨0, .unused, 0, 0, 0, 0⟩
  nextPid := 1
  kmem := ⟨fun _ => 0, 0x80400000⟩

def firstLaunched : Launching where
  proc := ⟨1, .embryo, 0, 0x80400fb4, 0x80400f9c, 0x80400000⟩
  nextPid := 2
  kmem := ⟨store32 (memset 0x80400f9c 0 20 (store32 (fun _ => 0) 0x80400fb0 0x80102000)).2
    0x80400fac 0x80101000, 0⟩

/-- `switch_to(0x80106000, 0x80400f9c)`, when `tf->cs` has been set to `0x1b`. -/
def launchCpu : X86 :=
  { firstCpu with
    esp := 0x80105000
    mem := store16 (store32 (store32 firstLaunched.kmem.mem 0x80105004 0x80106000)
      0x80105008 0x80400f9c) 0x80400ff0 0x1b }

theorem first_launch_page :
    let c := launchCpu.switchTo
    let d := { c with eip := load32 c.mem c.esp, esp := c.esp + 4 }
    c.eip = 0x80101000 ∧ d.eip = 0x80102000 ∧ d.esp = 0x80400fb4 ∧ d.trapRet.cs = 0x1b ∧
      d.atIret.esp = 0x80400fec := by
  intro c d
  have hconf : Launching.configProcKstack 0x80101000 0x80102000 firstLaunching =
      .ok (true, firstLaunched) := rfl
  have hstack : ∀ x : Addr, (x - firstLaunched.proc.ctx).toNat < contextSize + 4 →
      launchCpu.mem x = firstLaunched.kmem.mem x := by
    intro x hx
    have hx' : (x - 0x80400f9c).toNat < 24 := hx
    show store16 (store32 (store32 firstLaunched.kmem.mem 0x80105004 0x80106000)
      0x80105008 0x80400f9c) 0x80400ff0 0x1b x = _
    rw [store16_outside _ _ _ _ (by bv_omega), store32_outside _ _ _ _ (by bv_omega),
      store32_outside _ _ _ _ (by bv_omega)]
  have hprev : launchCpu.prevArg = 0x80106000 := by decide +kernel
  have hapart : Disjoint (contextBytes launchCpu ∪ cell launchCpu.prevArg) firstLaunched.page := by
    rw [hprev]
    refine Set.disjoint_left.mpr fun x hx hx' => ?_
    have hpage : (x - 0x80400000).toNat < 4096 := hx'
    rcases hx with hctx | hcell
    · have hctx' : (x - (0x80105000 - 16)).toNat < 20 := hctx
      bv_omega
    · have hcell' : (x - 0x80106000).toNat < 4 := hcell
      bv_omega
  have hret : Returned c d := ⟨rfl, rfl, rfl, fun _ _ => rfl⟩
  have h := first_launch hconf (by decide) hstack (by decide +kernel) (by decide)
    (by decide +kernel) hapart hret
  obtain ⟨hfork, htrap, hesp, hresume, -, -⟩ := h
  refine ⟨hfork, htrap, hesp, ?_, ?_⟩
  · rw [hresume]
    decide +kernel
  · show d.esp + 32 + 16 + 8 = _
    rw [hesp]
    decide

end TuixOS
