import TuixOS.Process

/-!
# What a step of the kernel can do

`KernelStep.cases` lists the steps with the state each leaves, so that an invariant is proved by
cases on `StepCase` and never unfolds the functions of the machine.
-/

namespace TuixOS

open Lib

/-! ## Projections of the updates -/

namespace Kernel
variable {K : Type} (s : Kernel K) (p q : Slot) (st : ProcState) (chan : Word) (pc : ProcPc K)
  (cpu : Cpu (LockId K)) (spc : SchedPc)

@[simp] theorem setCpu_cpu : (s.setCpu cpu).cpu = cpu := rfl
@[simp] theorem setCpu_proc : (s.setCpu cpu).proc = s.proc := rfl
@[simp] theorem setCpu_cproc : (s.setCpu cpu).cproc = s.cproc := rfl
@[simp] theorem setCpu_running : (s.setCpu cpu).running = s.running := rfl
@[simp] theorem setCpu_irq : (s.setCpu cpu).irq = s.irq := rfl
@[simp] theorem setCpu_pc : (s.setCpu cpu).pc = s.pc := rfl
@[simp] theorem setCpu_schedPc : (s.setCpu cpu).schedPc = s.schedPc := rfl

@[simp] theorem goto_cpu : (s.goto p pc).cpu = s.cpu := rfl
@[simp] theorem goto_proc : (s.goto p pc).proc = s.proc := rfl
@[simp] theorem goto_cproc : (s.goto p pc).cproc = s.cproc := rfl
@[simp] theorem goto_running : (s.goto p pc).running = s.running := rfl
@[simp] theorem goto_irq : (s.goto p pc).irq = s.irq := rfl
@[simp] theorem goto_pc : (s.goto p pc).pc = Function.update s.pc p pc := rfl
@[simp] theorem goto_schedPc : (s.goto p pc).schedPc = s.schedPc := rfl

@[simp] theorem schedGoto_cpu : (s.schedGoto spc).cpu = s.cpu := rfl
@[simp] theorem schedGoto_proc : (s.schedGoto spc).proc = s.proc := rfl
@[simp] theorem schedGoto_cproc : (s.schedGoto spc).cproc = s.cproc := rfl
@[simp] theorem schedGoto_running : (s.schedGoto spc).running = s.running := rfl
@[simp] theorem schedGoto_irq : (s.schedGoto spc).irq = s.irq := rfl
@[simp] theorem schedGoto_pc : (s.schedGoto spc).pc = s.pc := rfl
@[simp] theorem schedGoto_schedPc : (s.schedGoto spc).schedPc = spc := rfl

@[simp] theorem setState_cpu : (s.setState q st).cpu = s.cpu := rfl
@[simp] theorem setState_cproc : (s.setState q st).cproc = s.cproc := rfl
@[simp] theorem setState_running : (s.setState q st).running = s.running := rfl
@[simp] theorem setState_irq : (s.setState q st).irq = s.irq := rfl
@[simp] theorem setState_pc : (s.setState q st).pc = s.pc := rfl
@[simp] theorem setState_schedPc : (s.setState q st).schedPc = s.schedPc := rfl

@[simp] theorem setChan_cpu : (s.setChan q chan).cpu = s.cpu := rfl
@[simp] theorem setChan_cproc : (s.setChan q chan).cproc = s.cproc := rfl
@[simp] theorem setChan_running : (s.setChan q chan).running = s.running := rfl
@[simp] theorem setChan_irq : (s.setChan q chan).irq = s.irq := rfl
@[simp] theorem setChan_pc : (s.setChan q chan).pc = s.pc := rfl
@[simp] theorem setChan_schedPc : (s.setChan q chan).schedPc = s.schedPc := rfl

theorem goto_pc_self : (s.goto p pc).pc p = pc := Function.update_self ..

theorem goto_pc_of_ne {s : Kernel K} {p q : Slot} {pc : ProcPc K} (h : q ≠ p) :
    (s.goto p pc).pc q = s.pc q :=
  Function.update_of_ne h ..

theorem setState_state : ((s.setState q st).proc p).state = if p = q then st else (s.proc p).state := by
  by_cases hpq : p = q
  · subst hpq
    simp [setState]
  · simp [setState, hpq]

@[simp] theorem setState_chan : ((s.setState q st).proc p).chan = (s.proc p).chan := by
  by_cases hpq : p = q
  · subst hpq
    simp [setState]
  · simp [setState, hpq]

@[simp] theorem setChan_state : ((s.setChan q chan).proc p).state = (s.proc p).state := by
  by_cases hpq : p = q
  · subst hpq
    simp [setChan]
  · simp [setChan, hpq]

end Kernel

/-! ## The loops over the process table -/

theorem wakeupLoop_apply (chan : Word) (q : Slot) : ∀ (qs : List Slot) (proc : Slot → Proc),
    wakeupLoop chan qs proc q =
      if q ∈ qs ∧ (proc q).state = .sleeping ∧ (proc q).chan = chan then
        { proc q with state := .runnable }
      else proc q := by
  intro qs
  induction qs with
  | nil => simp [wakeupLoop]
  | cons r qs ih =>
    intro proc
    rw [wakeupLoop, ih]
    by_cases hr : r = q
    · subst hr
      by_cases hw : (proc r).state = .sleeping ∧ (proc r).chan = chan
      · simp [hw]
      · simp [hw]
    · have hq : q ≠ r := Ne.symm hr
      have hsame : (if (proc r).state = .sleeping ∧ (proc r).chan = chan then
          Function.update proc r { proc r with state := .runnable } else proc) q = proc q := by
        split_ifs
        · exact Function.update_of_ne hq _ _
        · rfl
      rw [hsame]
      simp [hq]

/-- The process table after `wakeup`. -/
def wokenProc (chan : Word) (proc : Slot → Proc) (q : Slot) : Proc :=
  if (proc q).state = .sleeping ∧ (proc q).chan = chan then { proc q with state := .runnable }
  else proc q

theorem wakeupLoop_all (chan : Word) (proc : Slot → Proc) :
    wakeupLoop chan (List.finRange maxProc) proc = wokenProc chan proc := by
  funext q
  rw [wakeupLoop_apply]
  simp [wokenProc, List.mem_finRange]

/-- `wakeup` with `ptable.lock` free returns. -/
theorem wakeup_ok {K : Type} [DecidableEq K] {s : Kernel K} (chan : Word) (h : SpinInv s.cpu)
    (hroom : s.cpu.ncli + 1 < intMax) (hfree : (s.cpu.lock .ptable).Free) :
    ∃ cpu, wakeup chan s = .ok { s with cpu := cpu, proc := wokenProc chan s.proc } ∧
      Nests s.cpu cpu 0 ∧ cpu.lock = s.cpu.lock := by
  obtain ⟨cpu₁, hacq, hn₁, hl₁⟩ := acquire_ok h hroom hfree
  obtain ⟨cpu₂, hrel, hn₂, hl₂⟩ := release_taken h hfree hroom hn₁ hl₁
  refine ⟨cpu₂, ?_, hn₂, hl₂⟩
  simp only [wakeup, hacq, wakeupLoop_all, hrel, bind, Except.bind]
  rfl

/-! ## The steps -/

/-- The statements that only release a lock: the lock, and where the process stands behind it. -/
def ProcPc.unlocks {K : Type} : ProcPc K → Option (LockId K × ProcPc K)
  | .forkRet => some (.ptable, .own)
  | .sleepUnlock a => some (a.lk, .sleepChan a)
  | .yieldRelease => some (.ptable, .own)
  | .sleepRelease a => some (.ptable, .sleepAcquire a)
  | _ => none

/-- Where the caller of `sched` goes on. -/
def SchedCaller.next {K : Type} : SchedCaller K → ProcPc K
  | .yield => .yieldRelease
  | .sleep a => .sleepClear a
  | .exit => .own

section Cases
variable {K : Type} [DecidableEq K]

/-- The scheduler's stack runs, or that of the process `p`, with no handler on top. -/
def Kernel.Runs (s : Kernel K) (p : Option Slot) : Prop := s.irq = false ∧ s.running = p

inductive StepCase (s : Kernel K) : Act K → Kernel K → Prop
  | boot (hr : s.Runs none) (hpc : s.schedPc = .boot) :
    StepCase s .go { s with cproc := none, schedPc := .sti }
  | sti (hr : s.Runs none) (hpc : s.schedPc = .sti) :
    StepCase s .go { s with cpu := sti s.cpu, schedPc := .acquire }
  | schedAcquire (cpu : Cpu (LockId K)) (hr : s.Runs none) (hpc : s.schedPc = .acquire)
    (hcpu : acquire .ptable s.cpu = .ok cpu) :
    StepCase s .go ((s.setCpu cpu).schedGoto (.scan 0))
  | skip (i : Slot) (hr : s.Runs none) (hpc : s.schedPc = .scan i)
    (hst : (s.proc i).state ≠ .runnable) : StepCase s .go (s.schedGoto (.scan (i + 1)))
  | pick (i : Slot) (hr : s.Runs none) (hpc : s.schedPc = .scan i)
    (hst : (s.proc i).state = .runnable) :
    StepCase s .go { s with cproc := some i, schedPc := .uvm i }
  | scanEnd (i : Nat) (hr : s.Runs none) (hpc : s.schedPc = .scan i) (hi : maxProc ≤ i) :
    StepCase s .go (s.schedGoto .release)
  | uvm (i : Slot) (hr : s.Runs none) (hpc : s.schedPc = .uvm i) :
    StepCase s .go (s.schedGoto (.run i))
  | run (i : Slot) (hr : s.Runs none) (hpc : s.schedPc = .run i) :
    StepCase s .go ((s.setState i .running).schedGoto (.switch i))
  | switch (i : Slot) (hr : s.Runs none) (hpc : s.schedPc = .switch i) :
    StepCase s .go { s with running := some i, schedPc := .back i }
  | back (i : Slot) (hr : s.Runs none) (hpc : s.schedPc = .back i) :
    StepCase s .go { s with cproc := none, schedPc := .scan (i + 1) }
  | schedRelease (cpu : Cpu (LockId K)) (hr : s.Runs none) (hpc : s.schedPc = .release)
    (hcpu : release .ptable s.cpu = .ok cpu) :
    StepCase s .go ((s.setCpu cpu).schedGoto .sti)
  | unlock (p : Slot) (lk : LockId K) (pc : ProcPc K) (cpu : Cpu (LockId K)) (hr : s.Runs (some p))
    (hpc : (s.pc p).unlocks = some (lk, pc)) (hcpu : release lk s.cpu = .ok cpu) :
    StepCase s .go ((s.setCpu cpu).goto p pc)
  | yieldState (p q : Slot) (hr : s.Runs (some p)) (hpc : s.pc p = .yieldState)
    (hq : s.cproc = some q) : StepCase s .go ((s.setState q .runnable).goto p (.sched .yield))
  | sleepChan (p : Slot) (a : SleepCall K) (hr : s.Runs (some p)) (hpc : s.pc p = .sleepChan a) :
    StepCase s .go ((s.setChan a.p a.chan).goto p (.sleepState a))
  | sleepState (p : Slot) (a : SleepCall K) (hr : s.Runs (some p)) (hpc : s.pc p = .sleepState a) :
    StepCase s .go ((s.setState a.p .sleeping).goto p (.sched (.sleep a)))
  | sched (p q : Slot) (r : SchedCaller K) (cpu : Cpu (LockId K)) (hr : s.Runs (some p))
    (hpc : s.pc p = .sched r) (hq : s.cproc = some q) (hcpu : holding .ptable s.cpu = .ok (true, cpu))
    (hncli : cpu.ncli = 1) (hst : (s.proc q).state ≠ .running) (hif : cpu.flIF = false) :
    StepCase s .go { (s.setCpu cpu).goto q (.switched r cpu.intena) with running := none }
  | switched (p : Slot) (r : SchedCaller K) (intena : Bool) (hr : s.Runs (some p))
    (hpc : s.pc p = .switched r intena) :
    StepCase s .go ((s.setCpu { s.cpu with intena := intena }).goto p r.next)
  | sleepClear (p : Slot) (a : SleepCall K) (hr : s.Runs (some p)) (hpc : s.pc p = .sleepClear a) :
    StepCase s .go ((s.setChan a.p 0).goto p (if a.lk ≠ .ptable then .sleepRelease a else .own))
  | sleepAcquire (p : Slot) (a : SleepCall K) (cpu : Cpu (LockId K)) (hr : s.Runs (some p))
    (hpc : s.pc p = .sleepAcquire a) (hcpu : acquire a.lk s.cpu = .ok cpu) :
    StepCase s .go ((s.setCpu cpu).goto p .own)
  | lockAcquire (lk : LockId K) (cpu : Cpu (LockId K)) (hr : s.irq = true ∨ ∃ p, s.InOwn p)
    (hcpu : acquire lk s.cpu = .ok cpu) : StepCase s (.lock (.acquire lk)) (s.setCpu cpu)
  | lockRelease (lk : LockId K) (cpu : Cpu (LockId K)) (hr : s.irq = true ∨ ∃ p, s.InOwn p)
    (hcpu : release lk s.cpu = .ok cpu) : StepCase s (.lock (.release lk)) (s.setCpu cpu)
  | wakeup (chan : Word) (cpu cpu' : Cpu (LockId K)) (hr : s.irq = true ∨ ∃ p, s.InOwn p)
    (hacq : acquire .ptable s.cpu = .ok cpu) (hrel : release .ptable cpu = .ok cpu') :
    StepCase s (.lock (.wakeup chan))
      { s with cpu := cpu', proc := wokenProc chan s.proc }
  | yield (p : Slot) (cpu : Cpu (LockId K)) (hr : s.InOwn p)
    (hcpu : acquire .ptable s.cpu = .ok cpu) :
    StepCase s (.own p .yield) ((s.setCpu cpu).goto p .yieldState)
  | sleep (p q : Slot) (chan : Word) (lk : LockId K) (cpu : Cpu (LockId K)) (hr : s.InOwn p)
    (hq : s.cproc = some q) (hlk : lk ≠ .ptable) (hcpu : acquire .ptable s.cpu = .ok cpu) :
    StepCase s (.own p (.sleep chan (some lk)))
      ((s.setCpu cpu).goto p (.sleepUnlock ⟨q, chan, lk⟩))
  | sleepPtable (p q : Slot) (chan : Word) (hr : s.InOwn p) (hq : s.cproc = some q) :
    StepCase s (.own p (.sleep chan (some .ptable))) (s.goto p (.sleepChan ⟨q, chan, .ptable⟩))
  | exit (p q : Slot) (hr : s.InOwn p) (hncli : s.cpu.ncli = 0) (hq : s.cproc = some q) :
    StepCase s (.own p .exit) (((s.setCpu (cli s.cpu)).setState q .zombie).goto p (.sched .exit))
  | setIF (p : Slot) (b : Bool) (hr : s.InOwn p) (hncli : s.cpu.ncli = 0) :
    StepCase s (.own p (.setIF b)) (s.setCpu (if b then TuixOS.sti s.cpu else cli s.cpu))
  | allocNone (kstack : Word) : StepCase s (.alloc kstack) s
  | allocFail (q : Slot) (hst : (s.proc q).state = .unused) (proc : Proc)
    (hproc : proc.state = .unused) : StepCase s (.alloc 0)
      { s with proc := Function.update s.proc q proc, nextPid := s.nextPid + 1 }
  | alloc (kstack : Word) (q : Slot) (hr : s.AtBoot ∨ ∃ p, s.InOwn p)
    (hst : (s.proc q).state = .unused) (proc : Proc) (hproc : proc.state = .embryo) :
    StepCase s (.alloc kstack)
      ({ s with proc := Function.update s.proc q proc, nextPid := s.nextPid + 1 }.goto q .forkRet)
  | runnable (q : Slot) (pgdir : Word) (hr : s.AtBoot ∨ ∃ p, s.InOwn p)
    (hst : (s.proc q).state = .embryo) (proc : Proc) (hproc : proc.state = .runnable) :
    StepCase s (.runnable q pgdir)
      { s with proc := Function.update s.proc q proc }
  | irqEnter (hirq : s.irq = false) (hif : s.cpu.flIF = true) :
    StepCase s .irqEnter { s with cpu := cli s.cpu, irq := true }
  | irqExit (hirq : s.irq = true) (hncli : s.cpu.ncli = 0) :
    StepCase s .irqExit { s with cpu := TuixOS.sti s.cpu, irq := false }

variable {s s' : Kernel K}

theorem schedStep_cases (hr : s.Runs none) (h : schedStep s = .ok s') : StepCase s .go s' := by
  unfold schedStep at h
  cases hpc : s.schedPc with
  | boot =>
    rw [hpc] at h
    cases h
    exact .boot hr hpc
  | sti =>
    rw [hpc] at h
    cases h
    exact .sti hr hpc
  | acquire =>
    rw [hpc] at h
    obtain ⟨cpu, hcpu, h⟩ := bind_eq_ok.mp h
    cases h
    exact .schedAcquire cpu hr hpc hcpu
  | scan i =>
    rw [hpc] at h
    simp only at h
    split_ifs at h with hi hst
    · cases h
      exact .skip ⟨i, hi⟩ hr hpc hst
    · cases h
      exact .pick ⟨i, hi⟩ hr hpc (not_not.mp hst)
    · cases h
      exact .scanEnd i hr hpc (not_lt.mp hi)
  | uvm i =>
    rw [hpc] at h
    obtain ⟨-, -, h⟩ := bind_eq_ok.mp h
    cases h
    exact .uvm i hr hpc
  | run i =>
    rw [hpc] at h
    cases h
    exact .run i hr hpc
  | switch i =>
    rw [hpc] at h
    cases h
    exact .switch i hr hpc
  | back i =>
    rw [hpc] at h
    cases h
    exact .back i hr hpc
  | release =>
    rw [hpc] at h
    obtain ⟨cpu, hcpu, h⟩ := bind_eq_ok.mp h
    cases h
    exact .schedRelease cpu hr hpc hcpu

theorem sched_cases {p : Slot} {r : SchedCaller K} (hr : s.Runs (some p)) (hpc : s.pc p = .sched r)
    (h : sched r s = .ok s') : StepCase s .go s' := by
  obtain ⟨⟨held, cpu⟩, hcpu, h⟩ := bind_eq_ok.mp h
  cases held with
  | false => cases h
  | true =>
    cases hq : s.cproc with
    | none =>
      simp only [hq, Bool.true_eq_false, if_false] at h
      split_ifs at h
    | some q =>
      simp only [hq, Bool.true_eq_false, if_false] at h
      split_ifs at h with hncli hst hif
      cases h
      exact .sched p q r cpu hr hpc hq hcpu (not_not.mp hncli) hst (Bool.eq_false_of_not_eq_true hif)

theorem unlock_cases {p : Slot} {lk : LockId K} {pc : ProcPc K} (hr : s.Runs (some p))
    (hpc : (s.pc p).unlocks = some (lk, pc))
    (h : (do let cpu ← release lk s.cpu; return (s.setCpu cpu).goto p pc : Res (Kernel K)) = .ok s') :
    StepCase s .go s' := by
  obtain ⟨cpu, hcpu, h⟩ := bind_eq_ok.mp h
  cases h
  exact .unlock p lk pc cpu hr hpc hcpu

theorem procStep_cases {p : Slot} (hr : s.Runs (some p)) (hown : s.pc p ≠ .own)
    (h : procStep p s = .ok s') : StepCase s .go s' := by
  unfold procStep at h
  cases hpc : s.pc p with
  | forkRet =>
    rw [hpc] at h
    exact unlock_cases hr (by rw [hpc]; rfl) h
  | own => exact absurd hpc hown
  | yieldState =>
    rw [hpc] at h
    cases hq : s.cproc with
    | none => simp [hq] at h
    | some q =>
      simp only [hq] at h
      cases h
      exact .yieldState p q hr hpc hq
  | sleepUnlock a =>
    rw [hpc] at h
    exact unlock_cases hr (by rw [hpc]; rfl) h
  | sleepChan a =>
    rw [hpc] at h
    cases h
    exact .sleepChan p a hr hpc
  | sleepState a =>
    rw [hpc] at h
    cases h
    exact .sleepState p a hr hpc
  | sched r =>
    rw [hpc] at h
    exact sched_cases hr hpc h
  | switched r intena =>
    have hcase := StepCase.switched p r intena hr hpc
    rw [hpc] at h
    cases r <;> cases h <;> exact hcase
  | yieldRelease =>
    rw [hpc] at h
    exact unlock_cases hr (by rw [hpc]; rfl) h
  | sleepClear a =>
    rw [hpc] at h
    cases h
    exact .sleepClear p a hr hpc
  | sleepRelease a =>
    rw [hpc] at h
    exact unlock_cases hr (by rw [hpc]; rfl) h
  | sleepAcquire a =>
    rw [hpc] at h
    obtain ⟨cpu, hcpu, h⟩ := bind_eq_ok.mp h
    cases h
    exact .sleepAcquire p a cpu hr hpc hcpu

theorem lockCall_cases {c : LockCall K} (hr : s.irq = true ∨ ∃ p, s.InOwn p)
    (h : c.exec s = .ok s') : StepCase s (.lock c) s' := by
  cases c with
  | acquire lk =>
    obtain ⟨cpu, hcpu, h⟩ := bind_eq_ok.mp h
    cases h
    exact .lockAcquire lk cpu hr hcpu
  | release lk =>
    obtain ⟨cpu, hcpu, h⟩ := bind_eq_ok.mp h
    cases h
    exact .lockRelease lk cpu hr hcpu
  | wakeup chan =>
    obtain ⟨cpu, hacq, h⟩ := bind_eq_ok.mp h
    obtain ⟨cpu', hrel, h⟩ := bind_eq_ok.mp h
    cases h
    rw [wakeupLoop_all]
    exact .wakeup chan cpu cpu' hr hacq hrel

theorem sleep_cases {p : Slot} {chan : Word} {lk : Option (LockId K)} (hr : s.InOwn p)
    (h : sleep p chan lk s = .ok s') : StepCase s (.own p (.sleep chan lk)) s' := by
  unfold sleep at h
  cases hq : s.cproc with
  | none =>
    rw [hq] at h
    cases h
  | some q =>
    cases lk with
    | none =>
      rw [hq] at h
      cases h
    | some lk =>
      by_cases hlk : lk = .ptable
      · subst hlk
        rw [hq] at h
        cases h
        exact .sleepPtable p q chan hr hq
      · simp only [hq, hlk, ne_eq, not_false_eq_true, if_true] at h
        obtain ⟨cpu, hcpu, h⟩ := bind_eq_ok.mp h
        cases h
        exact .sleep p q chan lk cpu hr hq hlk hcpu

theorem alloc_cases {kstack : Word} {r : Option Slot × Kernel K}
    (hr : s.AtBoot ∨ ∃ p, s.InOwn p) (h : allocProcess kstack s = .ok r) :
    StepCase s (.alloc kstack) r.2 := by
  unfold allocProcess at h
  cases hfind : (List.finRange maxProc).find? fun i => (s.proc i).state = .unused with
  | none =>
    rw [hfind] at h
    cases h
    exact .allocNone kstack
  | some q =>
    have hst : (s.proc q).state = .unused := by simpa using List.find?_some hfind
    rw [hfind] at h
    simp only [configProcKstack] at h
    split_ifs at h with hpid hk
    · cases h
      subst hk
      have hcase := StepCase.allocFail q hst
        { s.proc q with state := .unused, pid := s.nextPid, kstack := 0 } rfl
      simpa [Kernel.setState] using hcase
    · cases h
      exact .alloc kstack q hr hst _ rfl

theorem runnable_cases {q : Slot} {pgdir : Word} (hr : s.AtBoot ∨ ∃ p, s.InOwn p)
    (hst : (s.proc q).state = .embryo) (h : makeRunnable q pgdir s = .ok s') :
    StepCase s (.runnable q pgdir) s' := by
  simp only [makeRunnable] at h
  split_ifs at h with hpg
  cases h
  have hcase := StepCase.runnable q pgdir hr hst
    { s.proc q with state := .runnable, pgdir := pgdir } rfl
  simpa [Kernel.setState] using hcase

/-- Every step is one of the cases. -/
theorem KernelStep.cases {a : Act K} (h : KernelStep s a s') : StepCase s a s' := by
  obtain ⟨hen, h⟩ := h
  cases a with
  | go =>
    obtain ⟨hirq, hown⟩ := hen
    cases hrun : s.running with
    | none =>
      simp only [Act.exec, hrun] at h
      exact schedStep_cases ⟨hirq, hrun⟩ h
    | some p =>
      simp only [Act.exec, hrun] at h
      exact procStep_cases ⟨hirq, hrun⟩ (hown p hrun) h
  | lock c => exact lockCall_cases hen h
  | own p c =>
    cases c with
    | yield =>
      obtain ⟨cpu, hcpu, h⟩ := bind_eq_ok.mp h
      cases h
      exact .yield p cpu hen.1 hcpu
    | sleep chan lk => exact sleep_cases hen.1 h
    | exit =>
      cases hq : s.cproc with
      | none =>
        simp only [Act.exec, OwnCall.exec, sysExit, Kernel.setCpu_cproc, hq] at h
        cases h
      | some q =>
        simp only [Act.exec, OwnCall.exec, sysExit, Kernel.setCpu_cproc, hq] at h
        cases h
        exact .exit p q hen.1 hen.2 hq
    | setIF b =>
      cases h
      exact .setIF p b hen.1 hen.2
  | alloc kstack =>
    obtain ⟨r, hr, h⟩ := bind_eq_ok.mp h
    cases h
    exact alloc_cases hen hr
  | runnable q pgdir => exact runnable_cases hen.1 hen.2 h
  | irqEnter =>
    cases h
    exact .irqEnter hen.1 hen.2
  | irqExit =>
    cases h
    exact .irqExit hen.1 hen.2

/-! ## The machine executed -/

def runActs : List (Act K) → Kernel K → Option (Kernel K) := runLabels Act.Enabled Act.exec

theorem run_of_runActs {as : List (Act K)} {s s' : Kernel K} (h : runActs as s = some s') :
    Run KernelStep s as s' :=
  run_of_runLabels h

/-- No process, no lock taken, interrupts off. -/
def bootKernel : Kernel K where
  cpu := ⟨0, false, false, fun _ => ⟨0, none⟩, []⟩
  proc _ := ⟨0, .unused, 0, 0, 0⟩
  nextPid := 1
  cproc := none
  running := none
  irq := false
  pc _ := .own
  schedPc := .boot

omit [DecidableEq K] in
theorem boot_bootKernel : Boot (bootKernel : Kernel K) where
  cpu := ⟨rfl, fun _ => rfl, rfl⟩
  unused _ := rfl
  cproc := rfl
  running := rfl
  irq := rfl
  pc _ := rfl
  schedPc := rfl

/-- The first process is made and dispatched, up to its `fork_ret`. -/
def firstProcess : List (Act K) :=
  [.alloc 0x80400000, .runnable 0 0x80401000] ++ List.replicate 7 .go

end Cases

end TuixOS
