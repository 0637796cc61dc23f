import TuixOS.AllocProcess
import TuixOS.ProcessLife

/-!
# The stacks under the scheduler

`Kernel` changes stacks by setting `running`. On the CPU it is `switch_to` that does so, through the
contexts that it and `config_proc_kstack` leave in memory. `Machine` has the kernel's machine with
the CPU under it: the code that runs may do to memory what it likes, but for the stacks that do not
run, the pointers to their contexts, and the free pages.

`Resumable` is what memory has of a stack that does not run. It is kept by every step
(`machineInv_step`), so `switch_to` goes on where the kernel's machine says: `switch_resumes`.
-/

namespace TuixOS

open Lib

/-- The stack of `launch_first_proc`, or the kernel stack of a process. -/
abbrev Thread := Option Slot

/-- What the linker places: `boot_stack`, `c->scheduler`, the fields `ctx` of `ptable.proc`, and the
addresses that code goes on at. -/
structure SwitchSymbols where
  bootStack : Set Addr
  scheduler : Addr
  ctx : Slot → Addr
  forkRet : Word
  trapRet : Word
  /-- Behind the call of `switch_to` in `launch_first_proc`. -/
  schedulerRet : Word
  /-- Behind the call of `switch_to` in `sched`. -/
  schedRet : Word

namespace SwitchSymbols
variable (P : SwitchSymbols)

/-- Where `switch_to` saves the stack pointer. -/
def pointer : Thread → Addr
  | none => P.scheduler
  | some q => P.ctx q

def returnAddr : Thread → Word
  | none => P.schedulerRet
  | some _ => P.schedRet

/-- What a thread has outside the pages of `kalloc`. -/
def fixed : Thread → Set Addr
  | none => P.bootStack ∪ cell P.scheduler
  | some q => cell (P.ctx q)

/-- Different objects of the program do not overlap. -/
structure Apart : Prop where
  fixed : Pairwise fun t u => Disjoint (P.fixed t) (P.fixed u)
  scheduler : Disjoint P.bootStack (cell P.scheduler)

end SwitchSymbols

def stackPage (kstack : Addr) : Set Addr := {x | (x - kstack).toNat < kstackSize}

/-- Where `config_proc_kstack` puts the context, below `trap_ret` and the frame. -/
def launchCtx (kstack : Addr) : Addr := kstack + 3996

/-- The kernel's machine, the CPU, `kmem.freelist`, and how the CPU was when each thread last called
`switch_to`. -/
structure Machine (K : Type) where
  kernel : Kernel K
  cpu : X86
  freelist : Addr
  called : Thread → Option X86

namespace Machine
variable {K : Type} (P : SwitchSymbols) (s : Machine K)

def kstack (q : Slot) : Addr := (s.kernel.proc q).kstack

def Live (t : Thread) : Prop := ∀ q, t = some q → (s.kernel.proc q).state ≠ .unused

def stack : Thread → Set Addr
  | none => P.bootStack
  | some q => stackPage (s.kstack q)

def own (t : Thread) : Set Addr := s.stack P t ∪ cell (P.pointer t)

/-- What nobody else writes: of a stack that has not run, the words that the launch returns through.
The frame above them is filled in later. -/
def kept : Thread → Set Addr
  | none => P.bootStack
  | some q => match s.kernel.pc q with
    | .forkRet => {x | (x - launchCtx (s.kstack q)).toNat < contextSize + 4}
    | _ => stackPage (s.kstack q)

/-- The free pages are none of the program's objects, and no stack in use. -/
structure FreeOk (l : List Addr) : Prop where
  list : FreeList ⟨s.cpu.mem, s.freelist⟩ l
  fixed : ∀ p ∈ l, ∀ t, Disjoint (stackPage p) (P.fixed t)
  inUse : ∀ q, s.Live (some q) → s.kstack q ∉ l

end Machine

/-- `c` is at the first instruction of `switch_to(prev, *next)`, with room on its stack. -/
structure CallsSwitch (c : X86) (stack : Set Addr) (prev next : Addr) (ret : Word) : Prop where
  room : contextBytes c ⊆ stack
  prev : c.prevArg = prev
  next : c.nextArg = load32 c.mem next
  ret : load32 c.mem c.esp = ret

section Machine
variable {K : Type} [DecidableEq K]

/-- One step of the kernel's machine, or none. -/
def Kernel.Moves (k : Kernel K) : Option (Act K) → Kernel K → Prop
  | none, k' => k' = k
  | some a, k' => KernelStep k a k'

inductive MachineStep (P : SwitchSymbols) (s : Machine K) : Option (Act K) → Machine K → Prop
  /-- The thread that runs goes on, and makes no process. -/
  | run {o : Option (Act K)} {k : Kernel K} {c : X86} {f : Addr} (hk : s.kernel.Moves o k)
    (hrun : k.running = s.kernel.running)
    (hold : ∀ q, (s.kernel.proc q).state = .unused → (k.proc q).state = .unused)
    (hmem : ∀ t, s.Live t → t ≠ s.kernel.running → ∀ x ∈ s.kept P t ∪ cell (P.pointer t),
      c.mem x = s.cpu.mem x)
    (hfree : ∃ l, (Machine.mk k c f s.called).FreeOk P l) :
    MachineStep P s o ⟨k, c, f, s.called⟩
  /-- `config_proc_kstack` makes the stack of the slot `q`. -/
  | create {k : Kernel K} {c : X86} {q : Slot} {p : ProcStack} {r : Launching}
    (hk : KernelStep s.kernel (.alloc r.proc.kstack) k) (hunused : (s.kernel.proc q).state = .unused)
    (hq : (k.proc q).state ≠ .unused)
    (hconf : Launching.configProcKstack P.forkRet P.trapRet
      ⟨p, s.kernel.nextPid, ⟨s.cpu.mem, s.freelist⟩⟩ = .ok (true, r))
    (hmem : c.mem = store32 r.kmem.mem (P.ctx q) r.proc.ctx) :
    MachineStep P s (some (.alloc r.proc.kstack)) ⟨k, c, r.kmem.freelist, s.called⟩
  /-- `switch_to(&c->scheduler, p->ctx)` of `launch_first_proc` -/
  | dispatch {k : Kernel K} {i : Slot} (hk : KernelStep s.kernel .go k)
    (hnone : s.kernel.running = none) (hi : k.running = some i)
    (hcall : CallsSwitch s.cpu P.bootStack P.scheduler (P.ctx i) P.schedulerRet) :
    MachineStep P s (some .go)
      ⟨k, s.cpu.switchTo, s.freelist, Function.update s.called none (some s.cpu)⟩
  /-- `switch_to(&(c_cpu()->proc->ctx), c_cpu()->scheduler)` of `sched` -/
  | sched {k : Kernel K} {p q : Slot} (hk : KernelStep s.kernel .go k)
    (hp : s.kernel.running = some p) (hq : s.kernel.cproc = some q) (hnone : k.running = none)
    (hcall : CallsSwitch s.cpu (stackPage (s.kstack p)) (P.ctx q) P.scheduler P.schedRet) :
    MachineStep P s (some .go)
      ⟨k, s.cpu.switchTo, s.freelist, Function.update s.called (some p) (some s.cpu)⟩

/-- The kernel at boot, with the free pages that `kernel_main` has made. -/
structure MachineBoot (P : SwitchSymbols) (s : Machine K) : Prop where
  kernel : Boot s.kernel
  free : ∃ l, s.FreeOk P l

end Machine

/-! ## What memory has of a stack that does not run -/

/-- A stack made by `config_proc_kstack`. -/
structure Fresh (P : SwitchSymbols) (m : Mem) (q : Slot) (kstack : Addr) : Prop where
  pointer : load32 m (P.ctx q) = launchCtx kstack
  context : readContext m (launchCtx kstack) = ⟨0, 0, 0, 0, P.forkRet⟩
  ret : load32 m (launchCtx kstack + 20) = P.trapRet

/-- A stack that was left at the call `r`. -/
structure Left (P : SwitchSymbols) (m : Mem) (stack : Set Addr) (t : Thread) (r : X86) : Prop where
  room : contextBytes r ⊆ stack
  ret : load32 r.mem r.esp = P.returnAddr t
  pointer : load32 m (P.pointer t) = r.contextAddr
  context : readContext m r.contextAddr = r.callerContext
  rest : ∀ x ∈ stack, x ∉ contextBytes r → m x = r.mem x

inductive Resumable {K : Type} (P : SwitchSymbols) (s : Machine K) : Thread → Prop
  | first {q : Slot} (hpc : s.kernel.pc q = .forkRet) (h : Fresh P s.cpu.mem q (s.kstack q)) :
    Resumable P s (some q)
  | back {t : Thread} {r : X86} (hpc : ∀ q, t = some q → s.kernel.pc q ≠ .forkRet)
    (hr : s.called t = some r) (h : Left P s.cpu.mem (s.stack P t) t r) : Resumable P s t

structure MachineInv {K : Type} (P : SwitchSymbols) (s : Machine K) : Prop where
  sched : SchedInv s.kernel
  free : ∃ l, s.FreeOk P l
  live : s.Live s.kernel.running
  page : ∀ q, s.Live (some q) →
    PageAligned (s.kstack q) ∧ ∀ t, Disjoint (stackPage (s.kstack q)) (P.fixed t)
  apart : ∀ q q', s.Live (some q) → s.Live (some q') → s.kstack q = s.kstack q' → q = q'
  resumable : ∀ t, s.Live t → t ≠ s.kernel.running → Resumable P s t

/-- Where the CPU `c` goes on behind a switch to a thread. -/
inductive Resumes {K : Type} (P : SwitchSymbols) (s : Machine K) (c : X86) : Thread → Prop
  /-- The process has not run: it enters `fork_ret`, which returns to `trap_ret`. -/
  | first {q : Slot} (hpc : s.kernel.pc q = .forkRet) (heip : c.eip = P.forkRet)
    (hesp : c.esp = launchCtx (s.kstack q) + 20) (hret : load32 c.mem c.esp = P.trapRet)
    (hregs : c.edi = 0 ∧ c.esi = 0 ∧ c.ebx = 0 ∧ c.ebp = 0) : Resumes P s c (some q)
  /-- It goes on behind its last call of `switch_to`, with its registers and its stack. -/
  | back {t : Thread} {r : X86} (hpc : ∀ q, t = some q → s.kernel.pc q ≠ .forkRet)
    (hr : s.called t = some r) (heip : c.eip = P.returnAddr t) (hesp : c.esp = r.esp + 4)
    (hregs : c.edi = r.edi ∧ c.esi = r.esi ∧ c.ebx = r.ebx ∧ c.ebp = r.ebp)
    (hstack : ∀ x ∈ s.stack P t, x ∉ contextBytes r → c.mem x = r.mem x) : Resumes P s c t

/-! ## Memory -/

section Memory
variable {P : SwitchSymbols} {m m' : Mem} {kstack k k' : Addr}

theorem mem_stackPage (h : PageAligned k) {x : Addr} : x ∈ stackPage k ↔ pgRoundDown x = k :=
  (pgRoundDown_eq_iff h).symm

theorem stackPage_disjoint (h : PageAligned k) (h' : PageAligned k') (hne : k ≠ k') :
    Disjoint (stackPage k) (stackPage k') := by
  refine Set.disjoint_left.mpr fun x hx hx' => hne ?_
  rw [← (mem_stackPage h).mp hx, ← (mem_stackPage h').mp hx']

/-- The links are in the free pages. -/
theorem FreeList.congr_pages {f : Addr} {l : List Addr} (h : FreeList ⟨m, f⟩ l)
    (hm : ∀ p ∈ l, ∀ x ∈ stackPage p, m' x = m x) : FreeList ⟨m', f⟩ l where
  chain := h.chain.congr fun p hp => by
    refine load32_of_cell fun x hx => hm p hp x ?_
    have hx' : (x - p).toNat < 4 := hx
    exact Nat.lt_trans hx' (by decide)
  aligned := h.aligned

theorem Fresh.congr {q : Slot} (h : Fresh P m q kstack)
    (hm : ∀ x, (x - launchCtx kstack).toNat < contextSize + 4 ∨ x ∈ cell (P.ctx q) → m' x = m x) :
    Fresh P m' q kstack where
  pointer := by
    rw [← h.pointer]
    exact load32_of_cell fun x hx => hm x (Or.inr hx)
  context := by
    rw [← h.context]
    exact readContext_congr fun x hx => hm x (Or.inl (Nat.lt_trans hx (by decide)))
  ret := by
    rw [← h.ret]
    exact load32_within m _ (fun x hx => hm x (Or.inl hx)) (by decide)

theorem Left.congr {stack : Set Addr} {t : Thread} {r : X86} (h : Left P m stack t r)
    (hm : ∀ x ∈ stack ∪ cell (P.pointer t), m' x = m x) : Left P m' stack t r where
  room := h.room
  ret := h.ret
  pointer := by
    rw [← h.pointer]
    exact load32_of_cell fun x hx => hm x (Or.inr hx)
  context := by
    rw [← h.context]
    exact readContext_congr fun x hx => hm x (Or.inl (h.room hx))
  rest x hx hx' := (hm x (Or.inl hx)).trans (h.rest x hx hx')

end Memory

namespace Machine
variable {K : Type} {P : SwitchSymbols} {s s' : Machine K} {t u : Thread}

theorem kept_eq_stack (hpc : ∀ q, t = some q → s.kernel.pc q ≠ .forkRet) :
    s.kept P t = s.stack P t := by
  cases t with
  | none => rfl
  | some q =>
    have hq := hpc q rfl
    simp only [kept, stack]

theorem kept_subset_own : s.kept P t ∪ cell (P.pointer t) ⊆ s.own P t := by
  refine Set.union_subset_union_left _ ?_
  cases t with
  | none => exact Set.Subset.rfl
  | some q =>
    by_cases hpc : s.kernel.pc q = .forkRet
    · intro x hx
      simp only [kept, hpc] at hx
      have hx' : (x - (s.kstack q + 3996)).toNat < 24 := hx
      show (x - s.kstack q).toNat < 4096
      bv_omega
    · rw [kept_eq_stack (by rintro _ ⟨⟩; exact hpc)]

end Machine

theorem Resumable.congr {K : Type} {P : SwitchSymbols} {s s' : Machine K} {t : Thread} (h : Resumable P s t)
    (hpc : ∀ q, t = some q → s'.kernel.pc q = s.kernel.pc q)
    (hkstack : ∀ q, t = some q → s'.kstack q = s.kstack q) (hcalled : s'.called t = s.called t)
    (hm : ∀ x ∈ s.kept P t ∪ cell (P.pointer t), s'.cpu.mem x = s.cpu.mem x) : Resumable P s' t := by
  cases h with
  | @first q hq h =>
    refine .first ((hpc q rfl).trans hq) ?_
    rw [hkstack q rfl]
    refine h.congr fun x hx => hm x ?_
    simp only [Machine.kept, hq]
    exact hx
  | @back _ r hq hr h =>
    refine .back (fun q ht => (hpc q ht) ▸ hq q ht) (hcalled.trans hr) ?_
    have hstack : s'.stack P t = s.stack P t := by
      cases t with
      | none => rfl
      | some q => exact congrArg stackPage (hkstack q rfl)
    rw [hstack]
    rw [Machine.kept_eq_stack hq] at hm
    exact h.congr hm

/-- `switch_to` pops what memory has of the next thread. -/
theorem Resumable.resumes {K : Type} {P : SwitchSymbols} {s : Machine K} {u : Thread}
    (hres : Resumable P s u) (hnext : s.cpu.nextArg = load32 s.cpu.mem (P.pointer u))
    (hm : ∀ x ∈ s.own P u, s.cpu.switchTo.mem x = s.cpu.mem x) : Resumes P s s.cpu.switchTo u := by
  have hregs := X86.switchTo_restores s.cpu
  cases hres with
  | @first q hq h =>
    have hfresh : Fresh P s.cpu.switchTo.mem q (s.kstack q) := by
      refine h.congr fun x hx => hm x (Machine.kept_subset_own ?_)
      simp only [Machine.kept, hq]
      exact hx
    have harg : s.cpu.nextArg = launchCtx (s.kstack q) := hnext.trans h.pointer
    rw [harg, hfresh.context] at hregs
    have hesp : s.cpu.switchTo.esp = launchCtx (s.kstack q) + 20 := hregs.esp
    refine .first hq hregs.eip hesp ?_ ⟨hregs.edi, hregs.esi, hregs.ebx, hregs.ebp⟩
    rw [hesp]
    exact hfresh.ret
  | @back _ r hq hr h =>
    have hleft := h.congr hm
    have harg : s.cpu.nextArg = r.contextAddr := hnext.trans h.pointer
    rw [harg, hleft.context] at hregs
    have hesp : r.contextAddr + BitVec.ofNat 32 contextSize = r.esp + 4 := by
      unfold X86.contextAddr contextSize
      bv_omega
    exact .back hq hr (hregs.eip.trans h.ret) (hregs.esp.trans hesp)
      ⟨hregs.edi, hregs.esi, hregs.ebx, hregs.ebp⟩ hleft.rest

/-! ## The kernel's machine -/

section Kernel
variable {K : Type} [DecidableEq K] {k k' : Kernel K} {q : Slot}

/-- What a step does to the processes in use. -/
structure KeepsStacks (k k' : Kernel K) : Prop where
  sched : SchedInv k'
  used : ∀ q, (k.proc q).state ≠ .unused → (k'.proc q).state ≠ .unused
  kstack : ∀ q, (k.proc q).state ≠ .unused → (k'.proc q).kstack = (k.proc q).kstack
  pc : ∀ q, (k.proc q).state ≠ .unused → k.running ≠ some q → k'.pc q = k.pc q

theorem KernelStep.keeps {a : Act K} (h : SchedInv k) (hstep : KernelStep k a k') : KeepsStacks k k' where
  sched := schedInv_step h hstep.cases
  used _ hq := used_step hstep.cases hq
  kstack _ hq := (identity_step hstep hq).2
  pc q hq hne := by
    cases pc_step h hstep.cases q with
    | still hsame => exact hsame
    | taken hun => exact absurd hun hq
    | moved hr => exact absurd hr hne
    | called c hr => exact absurd hr.2.1 hne

theorem Kernel.Moves.keeps {o : Option (Act K)} (h : SchedInv k) (hk : k.Moves o k') : KeepsStacks k k' := by
  cases o with
  | none =>
    cases hk
    exact ⟨h, fun _ hq => hq, fun _ _ => rfl, fun _ _ _ => rfl⟩
  | some a => exact KernelStep.keeps h hk

/-- `sched` leaves the process behind its `switch_to`. -/
theorem sched_parked {p : Slot} (hstep : StepCase k .go k') (hinv : SchedInv k) (hp : k.running = some p)
    (hnone : k'.running = none) : k'.pc p ≠ .forkRet := by
  cases hstep with
  | sched p' q' r cpu hr hpc hq =>
    obtain rfl := hinv.self hr.2 hq
    obtain rfl : p' = p := Option.some.inj (hr.2.symm.trans hp)
    simp
  | boot hr | sti hr | schedAcquire _ hr | skip _ hr | pick _ hr | scanEnd _ hr | uvm _ hr | run _ hr
  | switch _ hr | back _ hr | schedRelease _ hr => cases hp.symm.trans hr.2
  | _ => cases hp.symm.trans hnone

end Kernel

/-! ## The invariant -/

namespace MachineInv
variable {K : Type} {P : SwitchSymbols} {s s' : Machine K} {t u : Thread} {q : Slot} {l : List Addr}

theorem page_own (h : MachineInv P s) (hq : s.Live (some q)) (hu : s.Live u) (hne : some q ≠ u) :
    Disjoint (stackPage (s.kstack q)) (s.own P u) := by
  obtain ⟨hpage, hfixed⟩ := h.page q hq
  cases u with
  | none => exact hfixed none
  | some q' =>
    refine Set.disjoint_union_right.mpr
      ⟨stackPage_disjoint hpage (h.page q' hu).1 fun he => ?_, hfixed (some q')⟩
    exact hne (congrArg some (h.apart q q' hq hu he))

theorem fixed_own (hP : P.Apart) (h : MachineInv P s) (hu : s.Live u) (hne : t ≠ u) :
    Disjoint (P.fixed t) (s.own P u) := by
  cases u with
  | none => exact hP.fixed hne
  | some q => exact Set.disjoint_union_right.mpr ⟨((h.page q hu).2 t).symm, hP.fixed hne⟩

/-- The threads do not share memory. -/
theorem own_apart (hP : P.Apart) (h : MachineInv P s) (ht : s.Live t) (hu : s.Live u) (hne : t ≠ u) :
    Disjoint (s.own P t) (s.own P u) := by
  cases t with
  | none => exact h.fixed_own hP hu hne
  | some q => exact Set.disjoint_union_left.mpr ⟨h.page_own ht hu hne, h.fixed_own hP hu hne⟩

theorem free_own (h : MachineInv P s) (hl : s.FreeOk P l) {p : Addr} (hp : p ∈ l) (hu : s.Live u) :
    Disjoint (stackPage p) (s.own P u) := by
  cases u with
  | none => exact hl.fixed p hp none
  | some q =>
    have hne : p ≠ s.kstack q := by
      rintro rfl
      exact hl.inUse q hu hp
    exact Set.disjoint_union_right.mpr
      ⟨stackPage_disjoint (hl.list.aligned p hp) (h.page q hu).1 hne, hl.fixed p hp (some q)⟩

/-- The pointer to the context is not on the stack. -/
theorem stack_pointer (hP : P.Apart) (h : MachineInv P s) (ht : s.Live t) :
    Disjoint (s.stack P t) (cell (P.pointer t)) := by
  cases t with
  | none => exact hP.scheduler
  | some q => exact (h.page q ht).2 (some q)

/-- A step that makes no process. -/
theorem keep (h : MachineInv P s) (hk : KeepsStacks s.kernel s'.kernel)
    (hold : ∀ q, (s.kernel.proc q).state = .unused → (s'.kernel.proc q).state = .unused)
    (hfree : ∃ l, s'.FreeOk P l) (hlive : s'.Live s'.kernel.running)
    (hres : ∀ t, s.Live t → t ≠ s'.kernel.running → Resumable P s' t) : MachineInv P s' where
  sched := hk.sched
  free := hfree
  live := hlive
  page q hq := by
    have hq₀ : s.Live (some q) := fun q' he hun => hq q' he (hold q' hun)
    have hsame : s'.kstack q = s.kstack q := hk.kstack q (hq₀ q rfl)
    rw [hsame]
    exact h.page q hq₀
  apart q q' hq hq' he := by
    have hq₀ : s.Live (some q) := fun r he hun => hq r he (hold r hun)
    have hq₀' : s.Live (some q') := fun r he hun => hq' r he (hold r hun)
    have hsame : s'.kstack q = s.kstack q := hk.kstack q (hq₀ q rfl)
    have hsame' : s'.kstack q' = s.kstack q' := hk.kstack q' (hq₀' q' rfl)
    exact h.apart q q' hq₀ hq₀' (by rw [← hsame, ← hsame', he])
  resumable t ht hne := hres t (fun q he hun => ht q he (hold q hun)) hne

/-- A thread that a step leaves alone. -/
theorem stays (h : MachineInv P s) (hk : KeepsStacks s.kernel s'.kernel) {t : Thread} (ht : s.Live t)
    (hne : t ≠ s.kernel.running) (hcalled : s'.called t = s.called t)
    (hm : ∀ x ∈ s.kept P t ∪ cell (P.pointer t), s'.cpu.mem x = s.cpu.mem x) : Resumable P s' t :=
  (h.resumable t ht hne).congr
    (fun q hq => hk.pc q (ht q hq) fun hr => hne (hq.trans hr.symm))
    (fun q hq => hk.kstack q (ht q hq)) hcalled hm

/-- The slot `q` has got a free page, and the others have kept theirs. -/
theorem apart_created (h : MachineInv P s) {p : Addr} (hl : s.FreeOk P (p :: l)) {f : Slot → Addr}
    {used : Slot → Prop} (hq : f q = p)
    (hother : ∀ q', q' ≠ q → used q' → s.Live (some q') ∧ f q' = s.kstack q') (a b : Slot)
    (ha : used a) (hb : used b) (he : f a = f b) : a = b := by
  have hnew : ∀ q', q' ≠ q → used q' → f q' ≠ p := by
    rintro q' hne hused rfl
    obtain ⟨hlive, hsame⟩ := hother q' hne hused
    exact hl.inUse q' hlive (hsame ▸ List.mem_cons_self)
  by_cases hqa : a = q
  · by_contra hab
    rw [hqa, hq] at he
    exact hnew b (fun hqb => hab (hqa.trans hqb.symm)) hb he.symm
  · by_cases hqb : b = q
    · rw [hqb, hq] at he
      exact absurd he (hnew a hqa ha)
    · obtain ⟨hlive, hsame⟩ := hother a hqa ha
      obtain ⟨hlive', hsame'⟩ := hother b hqb hb
      exact h.apart a b hlive hlive' (by rw [← hsame, ← hsame', he])

end MachineInv

theorem MachineBoot.inv {K : Type} {P : SwitchSymbols} {s : Machine K}
    (h : MachineBoot P s) : MachineInv P s where
  sched := h.kernel.schedInv
  free := h.free
  live q hq := by
    rw [h.kernel.running] at hq
    cases hq
  page q hq := absurd (h.kernel.unused q) (hq q rfl)
  apart q _ hq := absurd (h.kernel.unused q) (hq q rfl)
  resumable t ht hne := by
    cases t with
    | none => exact absurd h.kernel.running.symm hne
    | some q => exact absurd (h.kernel.unused q) (ht q rfl)

section Steps
variable {K : Type} [DecidableEq K] {P : SwitchSymbols} {s s' : Machine K}

/-! ### A new stack -/

namespace Launching
variable {forkRetAddr trapRetAddr : Word} {x y : Launching}

/-- A stack has been made of the first free page. -/
theorem configProcKstack_head {l : List Addr}
    (h : configProcKstack forkRetAddr trapRetAddr x = .ok (true, y)) (hl : FreeList x.kmem l) :
    ∃ l', l = y.proc.kstack :: l' ∧ FreeList y.kmem l' := by
  have hnext : x.nextPid ≠ intMax := by
    intro he
    simp only [configProcKstack, if_pos he] at h
    cases h
  cases l with
  | nil =>
    have hnull : ∃ y', configProcKstack forkRetAddr trapRetAddr x = .ok (false, y') ∧ _ :=
      configProcKstack_null hnext hl
    obtain ⟨y', hrun, -⟩ := hnull
    rw [hrun] at h
    cases h
  | cons k l' =>
    have hpage : ∃ y', configProcKstack forkRetAddr trapRetAddr x = .ok (true, y') ∧ _ :=
      configProcKstack_page hnext hl
    obtain ⟨y', hrun, -, -, hk, -, hl'⟩ := hpage
    rw [hrun] at h
    cases h
    exact ⟨l', by rw [hk], hl'⟩

end Launching

theorem fresh_created {q : Slot} {x y : Launching} {m : Mem}
    (hconf : Launching.configProcKstack P.forkRet P.trapRet x = .ok (true, y))
    (hpage : PageAligned y.proc.kstack) (hcell : Disjoint (stackPage y.proc.kstack) (cell (P.ctx q)))
    (hm : m = store32 y.kmem.mem (P.ctx q) y.proc.ctx) : Fresh P m q y.proc.kstack := by
  obtain ⟨-, -, hctx, -⟩ := Launching.configProcKstack_ok hconf
  obtain ⟨heip, hret⟩ := Launching.configProcKstack_stack hconf hpage
  have hzero : ∀ field : Addr, field.toNat + 4 ≤ 16 → load32 y.kmem.mem (y.proc.ctx + field) = 0 :=
    fun _ => Launching.configProcKstack_zero hconf hpage
  rw [hctx] at heip hret hzero
  have hsame : ∀ a, (a - launchCtx y.proc.kstack).toNat < contextSize + 4 → m a = y.kmem.mem a := by
    intro a ha
    rw [hm]
    refine store32_outside _ _ _ _ (not_lt.mp fun hin => ?_)
    refine Set.disjoint_left.mp hcell ?_ hin
    have ha' : (a - (y.proc.kstack + 3996)).toNat < 24 := ha
    show (a - y.proc.kstack).toNat < 4096
    bv_omega
  refine ⟨?_, ?_, ?_⟩
  · rw [hm, load32_store32, hctx]
    rfl
  · rw [readContext_congr fun a ha => hsame a (Nat.lt_trans ha (by decide))]
    have hfirst := hzero 0 (by decide)
    rw [show y.proc.kstack + 3996 + 0 = y.proc.kstack + 3996 from BitVec.add_zero _] at hfirst
    simp only [readContext, launchCtx, hfirst, hzero 4 (by decide), hzero 8 (by decide),
      hzero 12 (by decide), heip]
  · exact (load32_within _ _ hsame (by decide)).trans hret

/-- Memory behind `config_proc_kstack` and the store of `proc->ctx`. -/
theorem created_outside {q : Slot} {x y : Launching} {m : Mem}
    (hconf : Launching.configProcKstack P.forkRet P.trapRet x = .ok (true, y))
    (hpage : PageAligned y.proc.kstack) (hm : m = store32 y.kmem.mem (P.ctx q) y.proc.ctx) {a : Addr}
    (ha : a ∉ stackPage y.proc.kstack) (ha' : a ∉ cell (P.ctx q)) : m a = x.kmem.mem a := by
  rw [hm, store32_outside _ _ _ _ (not_lt.mp ha')]
  exact Launching.configProcKstack_outside hconf hpage ha

theorem created_free {q : Slot} {y : Launching} {m : Mem} {l : List Addr}
    (hl : FreeList ⟨y.kmem.mem, y.kmem.freelist⟩ l)
    (hm : m = store32 y.kmem.mem (P.ctx q) y.proc.ctx)
    (hcell : ∀ p ∈ l, Disjoint (stackPage p) (cell (P.ctx q))) : FreeList ⟨m, y.kmem.freelist⟩ l := by
  refine hl.congr_pages fun p hp a ha => ?_
  rw [hm]
  exact store32_outside _ _ _ _ (not_lt.mp (Set.disjoint_left.mp (hcell p hp) ha))

namespace MachineInv

theorem create (hP : P.Apart) (h : MachineInv P s) {k : Kernel K} {c : X86} {q : Slot}
    {p : ProcStack} {r : Launching} (hk : KernelStep s.kernel (.alloc r.proc.kstack) k)
    (hunused : (s.kernel.proc q).state = .unused) (hq : (k.proc q).state ≠ .unused)
    (hconf : Launching.configProcKstack P.forkRet P.trapRet
      ⟨p, s.kernel.nextPid, ⟨s.cpu.mem, s.freelist⟩⟩ = .ok (true, r))
    (hmem : c.mem = store32 r.kmem.mem (P.ctx q) r.proc.ctx) :
    MachineInv P ⟨k, c, r.kmem.freelist, s.called⟩ := by
  obtain ⟨l₀, hl₀⟩ := h.free
  obtain ⟨l, rfl, hl⟩ := Launching.configProcKstack_head hconf hl₀.list
  obtain ⟨hkstack, hpc, hrun, hother⟩ := alloc_created hk hunused hq
  have hkeeps := KernelStep.keeps h.sched hk
  have hpage := hl₀.list.aligned _ List.mem_cons_self
  have hfixed := hl₀.fixed _ List.mem_cons_self
  have hnot : r.proc.kstack ∉ l := (List.nodup_cons.mp hl₀.list.nodup).1
  have hother' : ∀ q', q' ≠ q → (k.proc q').state ≠ .unused →
      s.Live (some q') ∧ (k.proc q').kstack = s.kstack q' := by
    intro q' hne hst
    rw [hother q' hne] at hst ⊢
    exact ⟨by rintro _ ⟨⟩; exact hst, rfl⟩
  have hcell : ∀ p' ∈ l, Disjoint (stackPage p') (cell (P.ctx q)) := fun p' hp =>
    hl₀.fixed p' (List.mem_cons_of_mem _ hp) (some q)
  refine
    { sched := hkeeps.sched
      free := ⟨l, created_free hl hmem hcell, fun p' hp => hl₀.fixed p' (List.mem_cons_of_mem _ hp),
        fun q' hq' => ?_⟩
      live := fun q' he => hkeeps.used q' (h.live q' (hrun ▸ he))
      page := fun q' hq' => ?_
      apart := fun a b ha hb => h.apart_created hl₀ hkstack hother' a b (ha a rfl) (hb b rfl)
      resumable := fun t ht hne => ?_ }
  · show (k.proc q').kstack ∉ l
    by_cases hne : q' = q
    · rwa [hne, hkstack]
    · obtain ⟨hlive, hsame⟩ := hother' q' hne (hq' q' rfl)
      rw [hsame]
      exact fun hin => hl₀.inUse q' hlive (List.mem_cons_of_mem _ hin)
  · show PageAligned (k.proc q').kstack ∧ ∀ t, Disjoint (stackPage (k.proc q').kstack) (P.fixed t)
    by_cases hne : q' = q
    · rw [hne, hkstack]
      exact ⟨hpage, hfixed⟩
    · obtain ⟨hlive, hsame⟩ := hother' q' hne (hq' q' rfl)
      rw [hsame]
      exact h.page q' hlive
  · by_cases htq : t = some q
    · subst htq
      refine .first hpc ?_
      show Fresh P c.mem q (k.proc q).kstack
      rw [hkstack]
      exact fresh_created hconf hpage (hfixed (some q)) hmem
    · -- the new page and its pointer belong to nobody else
      have ht₀ : s.Live t := by
        rintro q' rfl
        exact (hother' q' (fun he => htq (congrArg some he)) (ht q' rfl)).1 q' rfl
      refine h.stays hkeeps ht₀ (hrun ▸ hne) rfl fun x hx => created_outside hconf hpage hmem ?_ ?_
      · exact Set.disjoint_right.mp (h.free_own hl₀ List.mem_cons_self ht₀) (Machine.kept_subset_own hx)
      · exact Set.disjoint_right.mp (h.fixed_own hP ht₀ (Ne.symm htq)) (Machine.kept_subset_own hx)

/-- A call of `switch_to` from one thread to another. -/
theorem switch (hP : P.Apart) (h : MachineInv P s) {k : Kernel K} {t u : Thread}
    (hk : KernelStep s.kernel .go k) (ht : s.kernel.running = t) (hu : k.running = u) (hne : t ≠ u)
    (hlive : ∀ q, u = some q → (k.proc q).state ≠ .unused)
    (hpc : ∀ q, t = some q → k.pc q ≠ .forkRet)
    (hcall : CallsSwitch s.cpu (s.stack P t) (P.pointer t) (P.pointer u) (P.returnAddr t)) :
    MachineInv P ⟨k, s.cpu.switchTo, s.freelist, Function.update s.called t (some s.cpu)⟩ ∧
      Resumes P s s.cpu.switchTo u := by
  subst ht hu
  have hkeeps := KernelStep.keeps h.sched hk
  have hused : ∀ q, (k.proc q).state ≠ .unused → (s.kernel.proc q).state ≠ .unused := fun q hq =>
    used_before h.sched hk.cases (by simp) hq
  have hold : ∀ q, (s.kernel.proc q).state = .unused → (k.proc q).state = .unused := fun q hq =>
    not_not.mp fun hq' => hused q hq' hq
  have hptr := h.stack_pointer hP h.live
  have hout : ∀ x, x ∉ s.own P s.kernel.running → s.cpu.switchTo.mem x = s.cpu.mem x := by
    intro x hx
    rw [Machine.own, Set.mem_union, not_or] at hx
    refine X86.switchTo_outside (fun hin => hx.1 (hcall.room hin)) ?_
    rw [hcall.prev]
    exact hx.2
  have hother : ∀ t, s.Live t → t ≠ s.kernel.running → ∀ x ∈ s.own P t,
      s.cpu.switchTo.mem x = s.cpu.mem x := fun t ht hne x hx =>
    hout x (Set.disjoint_left.mp (h.own_apart hP ht h.live hne) hx)
  refine ⟨h.keep hkeeps hold ?_ hlive fun t ht hnt => ?_, ?_⟩
  · obtain ⟨l, hl⟩ := h.free
    refine ⟨l, hl.list.congr_pages fun p hp x hx => hout x ?_, hl.fixed, fun q hq => ?_⟩
    · exact Set.disjoint_left.mp (h.free_own hl hp h.live) hx
    · have hq₀ : (s.kernel.proc q).state ≠ .unused := hused q (hq q rfl)
      show (k.proc q).kstack ∉ l
      rw [hkeeps.kstack q hq₀]
      exact hl.inUse q (by rintro _ ⟨⟩; exact hq₀)
  · by_cases htr : t = s.kernel.running
    · -- the thread that has called
      subst htr
      have hstack : (Machine.mk k s.cpu.switchTo s.freelist
          (Function.update s.called s.kernel.running (some s.cpu))).stack P s.kernel.running =
          s.stack P s.kernel.running := by
        cases hr : s.kernel.running with
        | none => rfl
        | some q => exact congrArg stackPage (hkeeps.kstack q (h.live q hr))
      have hsaved : Disjoint (contextBytes s.cpu) (cell s.cpu.prevArg) := by
        rw [hcall.prev]
        exact hptr.mono_left hcall.room
      obtain ⟨hpointer, hcontext⟩ := X86.switchTo_saves hsaved
      refine .back hpc (Function.update_self ..) ?_
      rw [hstack]
      rw [hcall.prev] at hpointer
      refine ⟨hcall.room, hcall.ret, hpointer, hcontext, fun x hx hx' => X86.switchTo_outside hx' ?_⟩
      rw [hcall.prev]
      exact Set.disjoint_left.mp hptr hx
    · refine h.stays hkeeps ht htr (Function.update_of_ne htr ..) fun x hx => ?_
      exact hother t ht htr x (Machine.kept_subset_own hx)
  · have hlive₀ : s.Live k.running := fun q hq => hused q (hlive q hq)
    exact (h.resumable _ hlive₀ (Ne.symm hne)).resumes hcall.next (hother _ hlive₀ (Ne.symm hne))

end MachineInv

theorem machineInv_step {o : Option (Act K)} (hP : P.Apart) (h : MachineInv P s)
    (hstep : MachineStep P s o s') : MachineInv P s' ∧
      (s'.kernel.running ≠ s.kernel.running → Resumes P s s'.cpu s'.kernel.running) := by
  cases hstep with
  | run hk hrun hold hmem hfree =>
    have hkeeps := hk.keeps h.sched
    refine ⟨h.keep hkeeps hold hfree (fun q hq => ?_) fun t ht hne => ?_, fun hne => absurd hrun hne⟩
    · exact hkeeps.used q (h.live q (hrun ▸ hq))
    · have hne' : t ≠ s.kernel.running := fun he => hne (he.trans hrun.symm)
      exact h.stays hkeeps ht hne' rfl (hmem t ht hne')
  | create hk hunused hq hconf hmem =>
    obtain ⟨-, -, hrun, -⟩ := alloc_created hk hunused hq
    exact ⟨h.create hP hk hunused hq hconf hmem, fun hne => absurd hrun hne⟩
  | @dispatch k i hk hnone hi hcall =>
    have hspc := (dispatch_cases hk.cases hnone i).1 hi
    have hrunning : (s.kernel.proc i).state = .running := by
      have hok := h.sched.scheduler hnone
      rw [hspc] at hok
      exact (hok.2 i).mpr rfl
    have hused : (k.proc i).state ≠ .unused := used_step hk.cases (by rw [hrunning]; decide)
    obtain ⟨hinv, hres⟩ := h.switch hP hk hnone hi (by simp) (by rintro _ ⟨⟩; exact hused) (by simp)
      hcall
    exact ⟨hinv, fun _ => hi ▸ hres⟩
  | @sched k p q hk hp hq hnone hcall =>
    obtain rfl := h.sched.self hp hq
    have hpark := sched_parked hk.cases h.sched hp hnone
    obtain ⟨hinv, hres⟩ := h.switch hP hk hp hnone (by simp) (by simp)
      (by rintro _ ⟨⟩; exact hpark) hcall
    exact ⟨hinv, fun _ => hnone ▸ hres⟩

/-- The kernel's machine takes its own steps. -/
theorem MachineStep.moves {o : Option (Act K)} (h : MachineStep P s o s') : s.kernel.Moves o s'.kernel := by
  cases h with
  | run hk => exact hk
  | create hk | dispatch hk | sched hk => exact hk

theorem machine_kernel_run {os : List (Option (Act K))} (h : Run (MachineStep P) s os s') :
    Run KernelStep s.kernel (os.filterMap id) s'.kernel := by
  induction h with
  | nil => exact .nil
  | @snoc os o t t' _ hstep ih =>
    have hmoves := hstep.moves
    rw [List.filterMap_append]
    cases o with
    | none =>
      have hsame : t'.kernel = t.kernel := hmoves
      rw [hsame]
      simpa using ih
    | some a => exact ih.snoc hmoves

/-- **The scheduler on the CPU.** In every run from boot the kernel's machine makes a run of its own;
and whenever a step changes stacks, `switch_to` has left the CPU where the kernel's machine says that
the next thread stands: at the entry of `fork_ret` on the stack that `config_proc_kstack` has made,
or behind the thread's own last call, with the registers and every byte of the stack of then. -/
theorem switch_resumes {s₀ : Machine K} {os : List (Option (Act K))} {o : Option (Act K)} (hP : P.Apart)
    (h₀ : MachineBoot P s₀) (hrun : Run (MachineStep P) s₀ os s) (hstep : MachineStep P s o s')
    (hswitch : s'.kernel.running ≠ s.kernel.running) :
    Run KernelStep s₀.kernel (os.filterMap id) s.kernel ∧ s.kernel.Moves o s'.kernel ∧
      Resumes P s s'.cpu s'.kernel.running := by
  have h : MachineInv P s := hrun.state_invariant h₀.inv fun _ _ _ h hstep => (machineInv_step hP h hstep).1
  exact ⟨machine_kernel_run hrun, hstep.moves, (machineInv_step hP h hstep).2 hswitch⟩

end Steps

/-! ## The first dispatch -/

/-- A step that neither changes stacks nor makes a process. -/
def Settled {K : Type} (k k' : Kernel K) : Prop :=
  k'.running = k.running ∧ ∀ q, (k.proc q).state = .unused → (k'.proc q).state = .unused

instance {K : Type} (k k' : Kernel K) : Decidable (Settled k k') := inferInstanceAs (Decidable (_ ∧ _))

def Act.execSettled (a : Act Unit) (k : Kernel Unit) : Res (Kernel Unit) :=
  match a.exec k with
  | .ok k' => if Settled k k' then .ok k' else .error .diverge
  | .error e => .error e

theorem Act.execSettled_eq {a : Act Unit} {k k' : Kernel Unit} (h : a.execSettled k = .ok k') :
    a.exec k = .ok k' ∧ Settled k k' := by
  unfold Act.execSettled at h
  split at h
  · next t ht =>
    split_ifs at h with hset
    cases h
    exact ⟨ht, hset⟩
  · cases h

/-- Such steps are made with the CPU as it is, here with no page left to free. -/
theorem machine_settled {P : SwitchSymbols} {as : List (Act Unit)} {k k' : Kernel Unit} {c : X86} {f : Addr}
    {called : Thread → Option X86} (hf : FreeList ⟨c.mem, f⟩ [])
    (h : runLabels Act.Enabled Act.execSettled as k = some k') :
    Run (MachineStep P) ⟨k, c, f, called⟩ (as.map some) ⟨k', c, f, called⟩ := by
  have hrun := run_of_runLabels h
  clear h
  induction hrun with
  | nil => exact .nil
  | @snoc as a t t' _ hstep ih =>
    obtain ⟨hexec, hrun, hold⟩ := Act.execSettled_eq hstep.2
    rw [List.map_append]
    refine ih.snoc (.run ⟨hstep.1, hexec⟩ hrun hold (fun _ _ _ _ _ => rfl) ⟨[], hf, ?_, ?_⟩)
    · exact fun _ hp => absurd hp List.not_mem_nil
    · exact fun _ _ => List.not_mem_nil

def firstSymbols : SwitchSymbols where
  bootStack := {x | (x - 0x80104000).toNat < 0x2000}
  scheduler := 0x80106000
  ctx q := 0x80107000 + BitVec.ofNat 32 (128 * q)
  forkRet := 0x80101000
  trapRet := 0x80102000
  schedulerRet := 0x80103000
  schedRet := 0x80103100

theorem firstSymbols_apart : firstSymbols.Apart where
  fixed := by
    have hboot : ∀ x : Addr, (x - 0x80104000).toNat < 0x2000 ∨ (x - 0x80106000).toNat < 4 →
        ∀ q : Slot, ¬(x - (0x80107000 + BitVec.ofNat 32 (128 * q))).toNat < 4 := by
      intro x hx q
      have hq : q.val < 64 := q.isLt
      bv_omega
    intro t u htu
    cases t with
    | none =>
      cases u with
      | none => exact absurd rfl htu
      | some q => exact Set.disjoint_left.mpr fun x hx hx' => hboot x hx q hx'
    | some p =>
      cases u with
      | none => exact Set.disjoint_left.mpr fun x hx hx' => hboot x hx' p hx
      | some q =>
        have hne : p.val ≠ q.val := fun he => htu (congrArg some (Fin.ext he))
        have hp : p.val < 64 := p.isLt
        have hq : q.val < 64 := q.isLt
        refine Set.disjoint_left.mpr fun x (hx : (x - (0x80107000 + BitVec.ofNat 32 (128 * p))).toNat < 4)
          (hx' : (x - (0x80107000 + BitVec.ofNat 32 (128 * q))).toNat < 4) => ?_
        bv_omega
  scheduler := by
    refine Set.disjoint_left.mpr fun x (hx : (x - 0x80104000).toNat < 0x2000) hx' => ?_
    have hcell : (x - 0x80106000).toNat < 4 := hx'
    bv_omega

/-- At boot, with one free page. The boot stack has the words of the call that comes. -/
def firstMachine : Machine Unit where
  kernel := bootKernel
  cpu :=
    { firstCpu with
      esp := 0x80105000
      mem := store32 (store32 (store32 (fun _ => 0) 0x80105000 0x80103000) 0x80105004 0x80106000)
        0x80105008 0x80400f9c }
  freelist := 0x80400000
  called _ := none

theorem firstMachine_free : firstMachine.FreeOk firstSymbols [0x80400000] where
  list := by
    have hnext : load32 firstMachine.cpu.mem 0x80400000 = 0 := by decide +kernel
    exact ⟨⟨rfl, by decide, hnext⟩, by simp [PageAligned]⟩
  fixed := by
    intro p hp t
    obtain rfl := List.mem_singleton.mp hp
    refine Set.disjoint_left.mpr fun x (hx : (x - 0x80400000).toNat < 4096) hx' => ?_
    cases t with
    | none =>
      have hfixed : (x - 0x80104000).toNat < 0x2000 ∨ (x - 0x80106000).toNat < 4 := hx'
      bv_omega
    | some q =>
      have hcell : (x - (0x80107000 + BitVec.ofNat 32 (128 * q))).toNat < 4 := hx'
      have hq : q.val < 64 := q.isLt
      bv_omega
  inUse q hq := absurd rfl (hq q rfl)

/-- The CPU is still at the call when the stack has been made. -/
theorem firstMachine_calls {r : Launching} {c : X86} (hcpu : c.esp = 0x80105000)
    (hconf : Launching.configProcKstack 0x80101000 0x80102000
      ⟨⟨0, .unused, 0, 0, 0, 0⟩, 1, ⟨firstMachine.cpu.mem, 0x80400000⟩⟩ = .ok (true, r))
    (hk : r.proc.kstack = 0x80400000) (hmem : c.mem = store32 r.kmem.mem 0x80107000 r.proc.ctx) :
    CallsSwitch c firstSymbols.bootStack 0x80106000 0x80107000 0x80103000 := by
  obtain ⟨-, -, hctx, -⟩ := Launching.configProcKstack_ok hconf
  have hsame : ∀ x : Addr, (x - 0x80105000).toNat < 12 → c.mem x = firstMachine.cpu.mem x := by
    intro x hx
    rw [hmem, store32_outside _ _ _ _ (by bv_omega)]
    refine Launching.configProcKstack_outside hconf (hk ▸ by decide) fun hin => ?_
    have hin' : (x - r.proc.kstack).toNat < 4096 := hin
    rw [hk] at hin'
    bv_omega
  have hload : ∀ a : Addr, a.toNat + 4 ≤ 12 →
      load32 c.mem (0x80105000 + a) = load32 firstMachine.cpu.mem (0x80105000 + a) := fun _ ha =>
    load32_within _ _ hsame ha
  refine ⟨fun x (hx : (x - (c.esp - 16)).toNat < 20) => ?_, ?_, ?_, ?_⟩
  · show (x - 0x80104000).toNat < 0x2000
    rw [hcpu] at hx
    bv_omega
  · show load32 c.mem (c.esp + 4) = _
    rw [hcpu, hload 4 (by decide)]
    decide +kernel
  · show load32 c.mem (c.esp + 8) = _
    rw [hcpu, hload 8 (by decide), hmem, load32_store32, hctx, hk]
    decide +kernel
  · have hret := hload 0 (by decide)
    rw [show (0x80105000 + 0 : Addr) = 0x80105000 by decide] at hret
    rw [hcpu, hret]
    decide +kernel

theorem switch_resumes_first : ∃ (os : List (Option (Act Unit))) (s s' : Machine Unit),
    Run (MachineStep firstSymbols) firstMachine os s ∧ s.kernel.running = none ∧
      s'.kernel.running = some 0 ∧ s'.cpu.eip = 0x80101000 ∧
      load32 s'.cpu.mem s'.cpu.esp = 0x80102000 := by
  have hexec : (runActs [.alloc 0x80400000] (bootKernel : Kernel Unit)).any (fun k₁ =>
      decide ((k₁.proc 0).state ≠ .unused) &&
        (runLabels Act.Enabled Act.execSettled (.runnable 0 0x80401000 :: List.replicate 6 .go) k₁).any
          fun k₂ => decide (k₂.running = none ∧ k₂.pc 0 = .forkRet) &&
            (runActs [.go] k₂).any fun k₃ => decide (k₃.running = some 0)) = true := by
    decide +kernel
  obtain ⟨k₁, h₁, hexec⟩ := (Option.any_eq_true _ _).mp hexec
  obtain ⟨hused, hexec⟩ := Bool.and_eq_true_iff.mp hexec
  obtain ⟨k₂, h₂, hexec⟩ := (Option.any_eq_true _ _).mp hexec
  obtain ⟨hready, hexec⟩ := Bool.and_eq_true_iff.mp hexec
  obtain ⟨k₃, h₃, hexec⟩ := (Option.any_eq_true _ _).mp hexec
  obtain ⟨hnone, hpc⟩ := of_decide_eq_true hready
  have hi : k₃.running = some 0 := of_decide_eq_true hexec
  obtain ⟨r, hconf, -, -, hk, -, hfree⟩ : ∃ r, Launching.configProcKstack 0x80101000 0x80102000
      ⟨⟨0, .unused, 0, 0, 0, 0⟩, 1, ⟨firstMachine.cpu.mem, 0x80400000⟩⟩ = .ok (true, r) ∧ _ :=
    Launching.configProcKstack_page (show (1 : Int) ≠ intMax by decide) firstMachine_free.list
  -- made, settled, and switched to
  let c : X86 := { firstMachine.cpu with mem := store32 r.kmem.mem 0x80107000 r.proc.ctx }
  have halloc : KernelStep bootKernel (.alloc r.proc.kstack) k₁ := by
    rw [hk]
    exact (run_of_runActs h₁).of_single
  have hcreate : MachineStep firstSymbols firstMachine _ ⟨k₁, c, r.kmem.freelist, fun _ => none⟩ :=
    .create halloc rfl (of_decide_eq_true hused) hconf rfl
  have hempty : FreeList ⟨c.mem, r.kmem.freelist⟩ [] := ⟨hfree.chain, by simp⟩
  have hrun := Run.cons hcreate (machine_settled (P := firstSymbols) hempty h₂)
  have hcall : CallsSwitch c firstSymbols.bootStack 0x80106000 0x80107000 0x80103000 :=
    firstMachine_calls rfl hconf hk rfl
  let s' : Machine Unit :=
    ⟨k₃, c.switchTo, r.kmem.freelist, Function.update (fun _ => none) none (some c)⟩
  have hswitch : MachineStep firstSymbols ⟨k₂, c, r.kmem.freelist, fun _ => none⟩ (some .go) s' :=
    .dispatch (run_of_runActs h₃).of_single hnone hi hcall
  obtain ⟨-, -, hres⟩ := switch_resumes firstSymbols_apart ⟨boot_bootKernel, _, firstMachine_free⟩
    hrun hswitch (by simp [s', hi, hnone])
  refine ⟨_, _, s', hrun, hnone, hi, ?_⟩
  rw [show s'.kernel.running = some 0 from hi] at hres
  cases hres with
  | first _ heip _ hret => exact ⟨heip, hret⟩
  | back hback => exact absurd hpc (hback 0 rfl)

end TuixOS
