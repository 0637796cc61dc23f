import TuixOS.Spinlock
import Mathlib.Data.Fintype.Sum
import Mathlib.Data.List.FinRange
import Mathlib.Tactic.DeriveFintype

/-!
# Processes and the scheduler: `kernel/sys/process.c`

The kernel as a machine whose steps are the statements of `launch_first_proc`, `fork_ret`, `yield`,
`sleep` and `sched` that other code can come between, each on its own stack: `schedPc` says where
the scheduler stands, `pc` where each process does. `running` is the stack the CPU is on, and
`switch_to` changes it. An interrupt handler runs on top of the current stack (`irq`).

`acquire`, `release` and `wakeup` are single steps: they run with interrupts off, on the only CPU,
from their first effect to their last.

A process runs code of its own between its calls (`ProcPc.own`): it takes and releases locks, calls
`wakeup`, makes new processes, and changes the interrupt flag outside its critical sections, as the
gate of a system call and its `iret` do.
-/

namespace TuixOS

open Lib

/-- The spinlocks of the kernel: `ptable.lock` and the others. -/
inductive LockId (K : Type)
  | ptable
  | other (k : K)
  deriving DecidableEq, Fintype

def maxProc : Nat := 64

instance : NeZero maxProc := ⟨by decide⟩

/-- An index of `ptable.proc`. -/
abbrev Slot := Fin maxProc

/-- `enum proc_state` -/
inductive ProcState
  | unused | embryo | sleeping | runnable | running | zombie
  deriving DecidableEq

/-- The fields of `struct proc` that scheduling reads. -/
structure Proc where
  pid : Int
  state : ProcState
  chan : Word
  kstack : Word
  pgdir : Word
  deriving DecidableEq

/-- The local variables of `sleep`. -/
structure SleepCall (K : Type) where
  p : Slot
  chan : Word
  lk : LockId K
  deriving DecidableEq

/-- Who called `sched`. -/
inductive SchedCaller (K : Type)
  | yield
  | sleep (a : SleepCall K)
  | exit
  deriving DecidableEq

/-- Where a process stands: at the statement to run next. -/
inductive ProcPc (K : Type)
  /-- `fork_ret`: `release(&ptable.lock)` -/
  | forkRet
  /-- Its own code, in user mode or in the kernel. -/
  | own
  /-- `yield`, lock taken: `c_cpu()->proc->state = RUNNABLE` -/
  | yieldState
  /-- `sleep`, `ptable.lock` taken: `release(lk)` -/
  | sleepUnlock (a : SleepCall K)
  /-- `sleep`: `p->chan = chan` -/
  | sleepChan (a : SleepCall K)
  /-- `sleep`: `p->state = SLEEPING` -/
  | sleepState (a : SleepCall K)
  /-- The start of `sched`. -/
  | sched (r : SchedCaller K)
  /-- In `sched` behind `switch_to`, with its local `intena`. -/
  | switched (r : SchedCaller K) (intena : Bool)
  /-- `yield`: `release(&ptable.lock)` -/
  | yieldRelease
  /-- `sleep`: `p->chan = 0` -/
  | sleepClear (a : SleepCall K)
  /-- `sleep`: `release(&ptable.lock)` -/
  | sleepRelease (a : SleepCall K)
  /-- `sleep`: `acquire(lk)` -/
  | sleepAcquire (a : SleepCall K)
  deriving DecidableEq

/-- Where `launch_first_proc` stands; `boot` is before its first statement. -/
inductive SchedPc
  | boot
  | sti
  | acquire
  /-- The head of the `for` loop at `i`. -/
  | scan (i : Nat)
  /-- `switch_uvm(p)`, with `c->proc = p` set -/
  | uvm (i : Slot)
  /-- `p->state = RUNNING` -/
  | run (i : Slot)
  /-- `switch_to(old_ctx, new_ctx)` -/
  | switch (i : Slot)
  /-- Behind `switch_to`: `switch_kvm(); c->proc = 0` -/
  | back (i : Slot)
  | release
  deriving DecidableEq

structure Kernel (K : Type) where
  cpu : Cpu (LockId K)
  proc : Slot → Proc
  nextPid : Int
  /-- `c->proc` -/
  cproc : Option Slot
  /-- The process whose stack the CPU is on, or the scheduler's. -/
  running : Option Slot
  /-- An interrupt handler runs on top of that stack. -/
  irq : Bool
  pc : Slot → ProcPc K
  schedPc : SchedPc

namespace Kernel
variable {K : Type}

def setState (s : Kernel K) (q : Slot) (st : ProcState) : Kernel K :=
  { s with proc := Function.update s.proc q { s.proc q with state := st } }

def setChan (s : Kernel K) (q : Slot) (chan : Word) : Kernel K :=
  { s with proc := Function.update s.proc q { s.proc q with chan := chan } }

def goto (s : Kernel K) (p : Slot) (pc : ProcPc K) : Kernel K :=
  { s with pc := Function.update s.pc p pc }

def setCpu (s : Kernel K) (cpu : Cpu (LockId K)) : Kernel K := { s with cpu := cpu }

def schedGoto (s : Kernel K) (pc : SchedPc) : Kernel K := { s with schedPc := pc }

end Kernel

section Functions
variable {K : Type} [DecidableEq K]

/-! ## Process creation -/

/-- `kstack` is what `kalloc` returns. The new stack starts in `fork_ret`. -/
def configProcKstack (kstack : Word) (q : Slot) (s : Kernel K) : Res (Option Slot × Kernel K) :=
  if s.nextPid = intMax then .error .overflow
  else
    let proc := { s.proc q with state := .embryo, pid := s.nextPid, kstack := kstack }
    let s := { s with proc := Function.update s.proc q proc, nextPid := s.nextPid + 1 }
    if kstack = 0 then .ok (none, s.setState q .unused)
    else .ok (some q, s.goto q .forkRet)

def allocProcess (kstack : Word) (s : Kernel K) : Res (Option Slot × Kernel K) :=
  match (List.finRange maxProc).find? fun i => (s.proc i).state = .unused with
  | some i => configProcKstack kstack i s
  | none => .ok (none, s)

/-- The end of `init_user`: `pgdir` is what `setup_kvm` returned. -/
def makeRunnable (q : Slot) (pgdir : Word) (s : Kernel K) : Res (Kernel K) :=
  let s := { s with proc := Function.update s.proc q { s.proc q with pgdir := pgdir } }
  if pgdir = 0 then .error (.panic "userinit: out of memory?") else .ok (s.setState q .runnable)

/-! ## `wakeup` -/

/-- The loop of `wakeup` over the slots `qs`. -/
def wakeupLoop (chan : Word) : List Slot → (Slot → Proc) → Slot → Proc
  | [], proc => proc
  | q :: qs, proc =>
    wakeupLoop chan qs <|
      if (proc q).state = .sleeping ∧ (proc q).chan = chan then
        Function.update proc q { proc q with state := .runnable }
      else proc

def wakeup (chan : Word) (s : Kernel K) : Res (Kernel K) := do
  let cpu ← acquire .ptable s.cpu
  let s := { s with proc := wakeupLoop chan (List.finRange maxProc) s.proc }
  let cpu ← release .ptable cpu
  return s.setCpu cpu

/-! ## `launch_first_proc` -/

/-- The checks of `switch_uvm`. -/
def switchUvm (p : Slot) (s : Kernel K) : Res Unit :=
  if (s.proc p).kstack = 0 then .error (.panic "switch_uvm: no kstack")
  else if (s.proc p).pgdir = 0 then .error (.panic "switch_uvm: no pgdir")
  else .ok ()

def schedStep (s : Kernel K) : Res (Kernel K) :=
  match s.schedPc with
  | .boot => .ok { s with cproc := none, schedPc := .sti }
  | .sti => .ok { s with cpu := sti s.cpu, schedPc := .acquire }
  | .acquire => do
    let cpu ← acquire .ptable s.cpu
    return (s.setCpu cpu).schedGoto (.scan 0)
  | .scan i =>
    if h : i < maxProc then
      if (s.proc ⟨i, h⟩).state ≠ .runnable then .ok (s.schedGoto (.scan (i + 1)))
      else .ok { s with cproc := some ⟨i, h⟩, schedPc := .uvm ⟨i, h⟩ }
    else .ok (s.schedGoto .release)
  | .uvm i => do
    switchUvm i s
    return s.schedGoto (.run i)
  | .run i => .ok ((s.setState i .running).schedGoto (.switch i))
  | .switch i => .ok { s with running := some i, schedPc := .back i }
  | .back i => .ok { s with cproc := none, schedPc := .scan (i + 1) }
  | .release => do
    let cpu ← release .ptable s.cpu
    return (s.setCpu cpu).schedGoto .sti

/-! ## The functions a process runs -/

/-- `sched` up to its `switch_to`, which saves the stack in the context of `c->proc`. -/
def sched (r : SchedCaller K) (s : Kernel K) : Res (Kernel K) := do
  let (held, cpu) ← holding .ptable s.cpu
  if held = false then .error (.panic "sched ptable.lock")
  else if cpu.ncli ≠ 1 then .error (.panic "sched locks")
  else match s.cproc with
    | none => .error .fault
    | some p =>
      if (s.proc p).state = .running then .error (.panic "sched running")
      else if cpu.flIF then .error (.panic "sched interruptible")
      else .ok { (s.setCpu cpu).goto p (.switched r cpu.intena) with running := none }

/-- The next statement of the process `p` inside one of the functions. -/
def procStep (p : Slot) (s : Kernel K) : Res (Kernel K) :=
  match s.pc p with
  | .forkRet => do
    let cpu ← release .ptable s.cpu
    return (s.setCpu cpu).goto p .own
  | .own => .ok s
  | .yieldState =>
    match s.cproc with
    | some q => .ok ((s.setState q .runnable).goto p (.sched .yield))
    | none => .error .fault
  | .sleepUnlock a => do
    let cpu ← release a.lk s.cpu
    return (s.setCpu cpu).goto p (.sleepChan a)
  | .sleepChan a => .ok ((s.setChan a.p a.chan).goto p (.sleepState a))
  | .sleepState a => .ok ((s.setState a.p .sleeping).goto p (.sched (.sleep a)))
  | .sched r => sched r s
  | .switched r intena =>
    let s := s.setCpu { s.cpu with intena := intena }
    match r with
    | .yield => .ok (s.goto p .yieldRelease)
    | .sleep a => .ok (s.goto p (.sleepClear a))
    | .exit => .ok (s.goto p .own)
  | .yieldRelease => do
    let cpu ← release .ptable s.cpu
    return (s.setCpu cpu).goto p .own
  | .sleepClear a =>
    .ok ((s.setChan a.p 0).goto p (if a.lk ≠ .ptable then .sleepRelease a else .own))
  | .sleepRelease a => do
    let cpu ← release .ptable s.cpu
    return (s.setCpu cpu).goto p (.sleepAcquire a)
  | .sleepAcquire a => do
    let cpu ← acquire a.lk s.cpu
    return (s.setCpu cpu).goto p .own

/-- `yield` up to its first lock. -/
def yield (p : Slot) (s : Kernel K) : Res (Kernel K) := do
  let cpu ← acquire .ptable s.cpu
  return (s.setCpu cpu).goto p .yieldState

/-- `sleep` up to its first lock; a null `lk` is `none`. -/
def sleep (p : Slot) (chan : Word) (lk : Option (LockId K)) (s : Kernel K) : Res (Kernel K) := do
  let some q := s.cproc | throw (.panic "sleep")
  let some lk := lk | throw (.panic "sleep without lock")
  if lk ≠ .ptable then
    let cpu ← acquire .ptable s.cpu
    return (s.setCpu cpu).goto p (.sleepUnlock ⟨q, chan, lk⟩)
  else return s.goto p (.sleepChan ⟨q, chan, lk⟩)

/-- The `SYS_EXIT` case of `syscall_handlers`, entered through an interrupt gate. -/
def sysExit (p : Slot) (s : Kernel K) : Res (Kernel K) := do
  let s := s.setCpu (cli s.cpu)
  let some q := s.cproc | throw .fault
  return (s.setState q .zombie).goto p (.sched .exit)

end Functions

/-! ## The machine -/

/-- What a process in its own code or an interrupt handler does with locks. -/
inductive LockCall (K : Type)
  | acquire (lk : LockId K)
  | release (lk : LockId K)
  | wakeup (chan : Word)
  deriving DecidableEq

/-- What only a process does. -/
inductive OwnCall (K : Type)
  | yield
  | sleep (chan : Word) (lk : Option (LockId K))
  | exit
  | setIF (b : Bool)
  deriving DecidableEq

inductive Act (K : Type)
  /-- The next statement of the scheduler, or of the process inside one of the functions. -/
  | go
  | lock (c : LockCall K)
  | own (p : Slot) (c : OwnCall K)
  | alloc (kstack : Word)
  | runnable (q : Slot) (pgdir : Word)
  | irqEnter
  | irqExit
  deriving DecidableEq

section Machine
variable {K : Type} [DecidableEq K]

def LockCall.exec : LockCall K → Kernel K → Res (Kernel K)
  | .acquire lk, s => do return s.setCpu (← TuixOS.acquire lk s.cpu)
  | .release lk, s => do return s.setCpu (← TuixOS.release lk s.cpu)
  | .wakeup chan, s => TuixOS.wakeup chan s

def OwnCall.exec (p : Slot) : OwnCall K → Kernel K → Res (Kernel K)
  | .yield, s => TuixOS.yield p s
  | .sleep chan lk, s => TuixOS.sleep p chan lk s
  | .exit, s => sysExit p s
  | .setIF b, s => .ok (s.setCpu (if b then sti s.cpu else cli s.cpu))

def Act.exec : Act K → Kernel K → Res (Kernel K)
  | .go, s =>
    match s.running with
    | none => schedStep s
    | some p => procStep p s
  | .lock c, s => c.exec s
  | .own p c, s => c.exec p s
  | .alloc kstack, s => do return (← allocProcess kstack s).2
  | .runnable q pgdir, s => makeRunnable q pgdir s
  | .irqEnter, s => .ok { s with cpu := cli s.cpu, irq := true }
  | .irqExit, s => .ok { s with cpu := sti s.cpu, irq := false }

/-- The process `p` runs code of its own. -/
def Kernel.InOwn (s : Kernel K) (p : Slot) : Prop := s.irq = false ∧ s.running = some p ∧ s.pc p = .own

instance (s : Kernel K) (p : Slot) : Decidable (s.InOwn p) := inferInstanceAs (Decidable (_ ∧ _))

/-- `kernel_main` before `launch_first_proc`, where `init_user` makes the first process. -/
def Kernel.AtBoot (s : Kernel K) : Prop := s.irq = false ∧ s.running = none ∧ s.schedPc = .boot

instance (s : Kernel K) : Decidable s.AtBoot := inferInstanceAs (Decidable (_ ∧ _))

/-- When an action can be the next one. A handler returns with its locks released; user mode, from
which `SYS_EXIT` comes, and code that changes the interrupt flag hold no lock. -/
def Act.Enabled : Act K → Kernel K → Prop
  | .go, s => s.irq = false ∧ ∀ p, s.running = some p → s.pc p ≠ .own
  | .lock _, s => s.irq = true ∨ ∃ p, s.InOwn p
  | .own p c, s => s.InOwn p ∧ match c with
    | .exit | .setIF _ => s.cpu.ncli = 0
    | .yield | .sleep _ _ => True
  | .alloc _, s => s.AtBoot ∨ ∃ p, s.InOwn p
  | .runnable q _, s => (s.AtBoot ∨ ∃ p, s.InOwn p) ∧ (s.proc q).state = .embryo
  | .irqEnter, s => s.irq = false ∧ s.cpu.flIF = true
  | .irqExit, s => s.irq = true ∧ s.cpu.ncli = 0

instance : ∀ (a : Act K) (s : Kernel K), Decidable (a.Enabled s)
  | .go, s => inferInstanceAs (Decidable (s.irq = false ∧ ∀ p, s.running = some p → s.pc p ≠ .own))
  | .lock _, s => inferInstanceAs (Decidable (s.irq = true ∨ ∃ p, s.InOwn p))
  | .own p .exit, s => inferInstanceAs (Decidable (s.InOwn p ∧ s.cpu.ncli = 0))
  | .own p (.setIF _), s => inferInstanceAs (Decidable (s.InOwn p ∧ s.cpu.ncli = 0))
  | .own p .yield, s => inferInstanceAs (Decidable (s.InOwn p ∧ True))
  | .own p (.sleep _ _), s => inferInstanceAs (Decidable (s.InOwn p ∧ True))
  | .alloc _, s => inferInstanceAs (Decidable (s.AtBoot ∨ ∃ p, s.InOwn p))
  | .runnable q _, s => inferInstanceAs
      (Decidable ((s.AtBoot ∨ ∃ p, s.InOwn p) ∧ (s.proc q).state = .embryo))
  | .irqEnter, s => inferInstanceAs (Decidable (s.irq = false ∧ s.cpu.flIF = true))
  | .irqExit, s => inferInstanceAs (Decidable (s.irq = true ∧ s.cpu.ncli = 0))

/-- A step that returns. -/
def KernelStep (s : Kernel K) (a : Act K) (s' : Kernel K) : Prop := a.Enabled s ∧ a.exec s = .ok s'

/-- The kernel when `init_lock(&ptable.lock)` has run and no process exists; the stacks are not in
use. -/
structure Boot {K : Type} (s : Kernel K) : Prop where
  cpu : Quiet s.cpu
  unused : ∀ q, (s.proc q).state = .unused
  cproc : s.cproc = none
  running : s.running = none
  irq : s.irq = false
  pc : ∀ q, s.pc q = .own
  schedPc : s.schedPc = .boot

end Machine

end TuixOS
