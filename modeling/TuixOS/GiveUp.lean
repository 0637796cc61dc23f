import TuixOS.SchedLocks

/-!
# Entering `sched`

A process gives up the CPU through `yield`, `sleep` or the `SYS_EXIT` system call, and `sched` halts
the machine unless `ptable.lock` is the only lock held, interrupts are off and the process is no
longer `RUNNING`. The first two paths establish that (`sched_ok`); `SYS_EXIT` sets the state but
never takes the lock, so it always halts the machine (`giveUp_iff`).
-/

namespace TuixOS

open Lib

inductive GiveUp (K : Type)
  | yield
  | sleep (chan : Word) (lk : LockId K)
  | exit

section
variable {K : Type} [DecidableEq K]

/-- The statements from the call to the `switch_to` in `sched`. -/
def GiveUp.acts (p : Slot) : GiveUp K → List (Act K)
  | .yield => [.own p .yield, .go, .go]
  | .sleep chan lk => if lk = .ptable then [.own p (.sleep chan (some lk)), .go, .go, .go]
    else [.own p (.sleep chan (some lk)), .go, .go, .go, .go]
  | .exit => [.own p .exit, .go]

/-- `sleep` is called with its lock the only one held, and `SYS_EXIT` comes from user mode. -/
def GiveUp.Called (s : Kernel K) : GiveUp K → Prop
  | .yield => True
  | .sleep _ lk => ∀ lk', (s.cpu.lock lk').Held ↔ lk' = lk
  | .exit => s.cpu.ncli = 0

/-- No guard of `sched` halts the machine, and the scheduler runs with `ptable.lock` held. -/
def ReachesScheduler (s : Kernel K) (p : Slot) (w : GiveUp K) : Prop :=
  ∃ s', Run KernelStep s (w.acts p) s' ∧ s'.running = none ∧ (s'.cpu.lock .ptable).Held

variable {s s' : Kernel K} {p q : Slot}

theorem go_step (hr : s.Runs (some p)) (hpc : s.pc p ≠ .own) (h : procStep p s = .ok s') :
    KernelStep s .go s' := by
  refine ⟨⟨hr.1, fun p' hp' => ?_⟩, ?_⟩
  · obtain rfl : p = p' := Option.some.inj (hr.2.symm.trans hp')
    exact hpc
  · simp only [Act.exec, hr.2]
    exact h

/-- `sched` with its guards met. -/
theorem sched_ok {r : SchedCaller K} (hspin : SpinInv s.cpu) (hr : s.Runs (some p))
    (hpc : s.pc p = .sched r) (hq : s.cproc = some q) (hst : (s.proc q).state ≠ .running)
    (hncli : s.cpu.ncli = 1) (hheld : (s.cpu.lock .ptable).Held) :
    ∃ s', KernelStep s .go s' ∧ s'.running = none ∧ (s'.cpu.lock .ptable).Held := by
  obtain ⟨cpu, hcpu, hn, hl⟩ := holding_ok hspin (by rw [hncli]; decide) LockId.ptable
  have hncli' : cpu.ncli = 1 := by rw [hn.ncli, hncli, Int.add_zero]
  have hif : cpu.flIF = false := hn.inv.off (by rw [hncli']; decide)
  refine ⟨{ (s.setCpu cpu).goto q (.switched r cpu.intena) with running := none }, ?_, rfl, ?_⟩
  · apply go_step hr (by rw [hpc]; simp)
    simp only [procStep, hpc, sched, hcpu, hheld, decide_true, bind, Except.bind, hncli', hq, hst,
      hif, Bool.true_eq_false, Bool.false_eq_true, if_false, ne_eq, not_true_eq_false]
  · show (cpu.lock .ptable).Held
    rw [hl]
    exact hheld

/-- `sched` behind the setting of the state. -/
theorem leave_ok (r : SchedCaller K) {st : ProcState} (hspin : SpinInv s.cpu) (hr : s.Runs (some p))
    (hq : s.cproc = some p) (hst : st ≠ .running) (hncli : s.cpu.ncli = 1)
    (hheld : (s.cpu.lock .ptable).Held) :
    ∃ s', KernelStep ((s.setState p st).goto p (.sched r)) .go s' ∧ s'.running = none ∧
      (s'.cpu.lock .ptable).Held := by
  have hpc : ((s.setState p st).goto p (.sched r)).pc p = .sched r := by
    rw [Kernel.goto_pc_self]
  refine sched_ok hspin hr hpc hq ?_ hncli hheld
  rw [Kernel.goto_proc, Kernel.setState_state, if_pos rfl]
  exact hst

/-- The end of `sleep` before its switch. -/
theorem sleepChan_reaches {a : SleepCall K} (hspin : SpinInv s.cpu) (hr : s.Runs (some p))
    (hpc : s.pc p = .sleepChan a) (hq : s.cproc = some p) (ha : a.p = p) (hncli : s.cpu.ncli = 1)
    (hheld : (s.cpu.lock .ptable).Held) :
    ∃ s', Run KernelStep s [.go, .go, .go] s' ∧ s'.running = none ∧
      (s'.cpu.lock .ptable).Held := by
  subst ha
  have hstep₁ : KernelStep s .go ((s.setChan a.p a.chan).goto a.p (.sleepState a)) := by
    apply go_step hr (by rw [hpc]; simp)
    simp only [procStep, hpc]
  generalize hs₁ : (s.setChan a.p a.chan).goto a.p (.sleepState a) = s₁ at hstep₁
  have hr₁ : s₁.Runs (some a.p) := hs₁ ▸ hr
  have hpc₁ : s₁.pc a.p = .sleepState a := by
    rw [← hs₁, Kernel.goto_pc_self]
  have hcpu₁ : s₁.cpu = s.cpu := hs₁ ▸ rfl
  have hstep₂ : KernelStep s₁ .go
      ((s₁.setState a.p .sleeping).goto a.p (.sched (.sleep a))) := by
    apply go_step hr₁ (by rw [hpc₁]; simp)
    simp only [procStep, hpc₁]
  obtain ⟨s₃, hstep₃, hnone, hheld₃⟩ := leave_ok (.sleep a) (hcpu₁ ▸ hspin) hr₁ (hs₁ ▸ hq)
    (show ProcState.sleeping ≠ .running by decide) (hcpu₁ ▸ hncli) (hcpu₁ ▸ hheld)
  exact ⟨s₃, .cons hstep₁ (.cons hstep₂ (.cons hstep₃ .nil)), hnone, hheld₃⟩

/-- Behind its guards. -/
theorem sched_needs {r : SchedCaller K} (hspin : SpinInv s.cpu) (hr : s.running = some p)
    (hpc : s.pc p = .sched r) (hstep : KernelStep s .go s') :
    (s.cpu.lock .ptable).Held ∧ s.cpu.ncli = 1 := by
  obtain ⟨-, hexec⟩ := hstep
  simp only [Act.exec, hr, procStep, hpc, sched] at hexec
  obtain ⟨⟨held, cpu⟩, hcpu, hexec⟩ := bind_eq_ok.mp hexec
  obtain ⟨rfl, hn, -⟩ := holding_inv hspin hcpu
  by_cases hheld : (s.cpu.lock .ptable).Held
  · refine ⟨hheld, ?_⟩
    by_contra hncli
    have hne : cpu.ncli ≠ 1 := by rwa [hn.ncli, Int.add_zero]
    simp [hheld, hne] at hexec
  · simp [hheld] at hexec

theorem yieldState_inv (hr : s.running = some p) (hpc : s.pc p = .yieldState)
    (hstep : KernelStep s .go s') :
    s'.running = some p ∧ s'.pc p = .sched .yield ∧ s'.cpu = s.cpu := by
  obtain ⟨-, hexec⟩ := hstep
  simp only [Act.exec, hr, procStep, hpc] at hexec
  cases hq : s.cproc with
  | none => simp [hq] at hexec
  | some q =>
    simp only [hq] at hexec
    cases hexec
    exact ⟨hr, by rw [Kernel.goto_pc_self], rfl⟩

variable [Fintype K]

theorem yield_reaches (hs : SchedInv s) (hc : Counted s.cpu) (hown : s.InOwn p)
    (h0 : s.cpu.ncli = 0) : ReachesScheduler s p .yield := by
  have hfree := (hc.spin.free_iff LockId.ptable).mpr (hc.none_held h0 _)
  obtain ⟨cpu, hacq, hn, hl⟩ := acquire_ok hc.spin (by rw [h0]; decide) hfree
  have hstep₁ : KernelStep s (.own p .yield) ((s.setCpu cpu).goto p .yieldState) := by
    refine ⟨⟨hown, trivial⟩, ?_⟩
    simp only [Act.exec, OwnCall.exec, yield, hacq]
    rfl
  generalize hs₁ : (s.setCpu cpu).goto p .yieldState = s₁ at hstep₁
  have hr₁ : s₁.Runs (some p) := hs₁ ▸ ⟨hown.1, hown.2.1⟩
  have hpc₁ : s₁.pc p = .yieldState := by
    rw [← hs₁, Kernel.goto_pc_self]
  have hq₁ : s₁.cproc = some p := hs₁ ▸ (hs.process p hown.2.1).1
  have hcpu₁ : s₁.cpu = cpu := hs₁ ▸ rfl
  have hstep₂ : KernelStep s₁ .go ((s₁.setState p .runnable).goto p (.sched .yield)) := by
    apply go_step hr₁ (by rw [hpc₁]; simp)
    simp only [procStep, hpc₁, hq₁]
  have hheld : (s₁.cpu.lock .ptable).Held := by
    rw [hcpu₁]
    exact held_of_taken hl
  obtain ⟨s₃, hstep₃, hnone, hheld₃⟩ := leave_ok .yield (hcpu₁ ▸ hn.inv) hr₁ hq₁
    (show ProcState.runnable ≠ .running by decide) (by rw [hcpu₁, hn.ncli, h0]; rfl) hheld
  exact ⟨s₃, .cons hstep₁ (.cons hstep₂ (.cons hstep₃ .nil)), hnone, hheld₃⟩

theorem Counted.one_of_only {cpu : Cpu (LockId K)} {lk : LockId K} (hc : Counted cpu)
    (honly : ∀ lk', (cpu.lock lk').Held ↔ lk' = lk) : cpu.ncli = 1 := by
  have hset : (Finset.univ.filter fun lk' => (cpu.lock lk').Held) = {lk} := by
    ext lk'
    simp [honly]
  rw [hc.ncli, heldCount, hset, Finset.card_singleton]
  rfl

/-- `sleep` takes `ptable.lock` before it releases its own, and then holds no other. -/
theorem sleep_swaps (hs : SchedInv s) (hc : Counted s.cpu) (hown : s.InOwn p) (chan : Word)
    {lk : LockId K} (hlk : lk ≠ .ptable) (honly : ∀ lk', (s.cpu.lock lk').Held ↔ lk' = lk) :
    ∃ s', Run KernelStep s [.own p (.sleep chan (some lk)), .go] s' ∧ SpinInv s'.cpu ∧
      s'.Runs (some p) ∧ s'.pc p = .sleepChan ⟨p, chan, lk⟩ ∧ s'.cproc = some p ∧ s'.cpu.ncli = 1 ∧
      (s'.cpu.lock .ptable).Held := by
  have h1 := hc.one_of_only honly
  have hproc := (hs.process p hown.2.1).1
  have hfree := (hc.spin.free_iff LockId.ptable).mpr fun h => hlk ((honly _).mp h).symm
  obtain ⟨cpu, hacq, hn, hl⟩ := acquire_ok hc.spin (by rw [h1]; decide) hfree
  have hstep₁ : KernelStep s (.own p (.sleep chan (some lk)))
      ((s.setCpu cpu).goto p (.sleepUnlock ⟨p, chan, lk⟩)) := by
    refine ⟨⟨hown, trivial⟩, ?_⟩
    simp only [Act.exec, OwnCall.exec, sleep, hproc, hlk, hacq, ne_eq, not_false_eq_true, if_true]
    rfl
  generalize hs₁ : (s.setCpu cpu).goto p (.sleepUnlock ⟨p, chan, lk⟩) = s₁ at hstep₁
  have hr₁ : s₁.Runs (some p) := hs₁ ▸ ⟨hown.1, hown.2.1⟩
  have hpc₁ : s₁.pc p = .sleepUnlock ⟨p, chan, lk⟩ := by
    rw [← hs₁, Kernel.goto_pc_self]
  have hcpu₁ : s₁.cpu = cpu := hs₁ ▸ rfl
  have h2 : s₁.cpu.ncli = 2 := by
    rw [hcpu₁, hn.ncli, h1]
    rfl
  have hheld₁ : (s₁.cpu.lock lk).Held := by
    rw [hcpu₁, hl, Function.update_of_ne hlk]
    exact (honly lk).mpr rfl
  obtain ⟨cpu₂, hrel, hn₂, hl₂⟩ := release_ok (hcpu₁ ▸ hn.inv) (by rw [h2]; decide)
    (by rw [h2]; decide) hheld₁
  have hstep₂ : KernelStep s₁ .go ((s₁.setCpu cpu₂).goto p (.sleepChan ⟨p, chan, lk⟩)) := by
    apply go_step hr₁ (by rw [hpc₁]; simp)
    simp only [procStep, hpc₁, hrel]
    rfl
  refine ⟨_, .cons hstep₁ (.single hstep₂), hn₂.inv, hr₁, by rw [Kernel.goto_pc_self], hs₁ ▸ hproc,
    ?_, ?_⟩
  · show cpu₂.ncli = 1
    rw [hn₂.ncli, h2]
    rfl
  · show (cpu₂.lock .ptable).Held
    rw [hl₂, Function.update_of_ne (Ne.symm hlk), hcpu₁]
    exact held_of_taken hl

theorem sleep_reaches (hs : SchedInv s) (hc : Counted s.cpu) (hown : s.InOwn p) (chan : Word)
    {lk : LockId K} (honly : ∀ lk', (s.cpu.lock lk').Held ↔ lk' = lk) :
    ReachesScheduler s p (.sleep chan lk) := by
  unfold ReachesScheduler
  by_cases hlk : lk = .ptable
  · -- the lock is `ptable.lock` itself
    subst hlk
    have hproc := (hs.process p hown.2.1).1
    have hstep₁ : KernelStep s (.own p (.sleep chan (some .ptable)))
        (s.goto p (.sleepChan ⟨p, chan, .ptable⟩)) := by
      refine ⟨⟨hown, trivial⟩, ?_⟩
      simp only [Act.exec, OwnCall.exec, sleep, hproc]
      rfl
    obtain ⟨s', hrun, hnone, hheld'⟩ := sleepChan_reaches
      (s := s.goto p (.sleepChan ⟨p, chan, .ptable⟩)) hc.spin ⟨hown.1, hown.2.1⟩
      (by rw [Kernel.goto_pc_self]) hproc rfl (hc.one_of_only honly) ((honly _).mpr rfl)
    refine ⟨s', ?_, hnone, hheld'⟩
    simp only [GiveUp.acts, if_true]
    exact .cons hstep₁ hrun
  · obtain ⟨s₂, hrun₂, hspin₂, hr₂, hpc₂, hq₂, hncli₂, hheld₂⟩ :=
      sleep_swaps hs hc hown chan hlk honly
    obtain ⟨s', hrun, hnone, hheld'⟩ := sleepChan_reaches hspin₂ hr₂ hpc₂ hq₂ rfl hncli₂ hheld₂
    refine ⟨s', ?_, hnone, hheld'⟩
    simp only [GiveUp.acts, if_neg hlk]
    exact hrun₂.append hrun

/-- `yield` under another lock meets the guard `ncli != 1`. -/
theorem yield_needs (hc : Counted s.cpu) (h : ReachesScheduler s p .yield) : s.cpu.ncli = 0 := by
  obtain ⟨s₃, hrun, -, -⟩ := h
  obtain ⟨s₁, hstep₁, hrun⟩ := hrun.cons_inv
  obtain ⟨s₂, hstep₂, hrun⟩ := hrun.cons_inv
  obtain ⟨s₃', hstep₃, -⟩ := hrun.cons_inv
  cases hstep₁.cases with
  | yield _ cpu hown hcpu =>
    obtain ⟨-, hn, -⟩ := acquire_inv hc.spin hcpu
    generalize hs₁ : (s.setCpu cpu).goto p .yieldState = s₁ at hstep₂
    have hr₁ : s₁.running = some p := hs₁ ▸ hown.2.1
    have hpc₁ : s₁.pc p = .yieldState := by
      rw [← hs₁, Kernel.goto_pc_self]
    have hcpu₁ : s₁.cpu = cpu := hs₁ ▸ rfl
    obtain ⟨hr₂, hpc₂, hcpu₂⟩ := yieldState_inv hr₁ hpc₁ hstep₂
    rw [hcpu₁] at hcpu₂
    obtain ⟨-, hncli⟩ := sched_needs (hcpu₂ ▸ hn.inv) hr₂ hpc₂ hstep₃
    rw [hcpu₂] at hncli
    have hnest := hn.ncli
    omega

/-- `SYS_EXIT` meets the guard that wants `ptable.lock` held. -/
theorem exit_never (hc : Counted s.cpu) (h0 : s.cpu.ncli = 0) : ¬ReachesScheduler s p .exit := by
  rintro ⟨s₂, hrun, -, -⟩
  obtain ⟨s₁, hstep₁, hrun⟩ := hrun.cons_inv
  obtain ⟨s₂', hstep₂, -⟩ := hrun.cons_inv
  cases hstep₁.cases with
  | exit _ q hown hncli hq =>
    generalize hs₁ : ((s.setCpu (cli s.cpu)).setState q .zombie).goto p (.sched .exit) = s₁ at hstep₂
    have hcpu₁ : s₁.cpu = cli s.cpu := hs₁ ▸ rfl
    have hpc₁ : s₁.pc p = .sched .exit := by
      rw [← hs₁, Kernel.goto_pc_self]
    have hr₁ : s₁.running = some p := hs₁ ▸ hown.2.1
    obtain ⟨hheld, -⟩ := sched_needs (hcpu₁ ▸ hc.spin.cli) hr₁ hpc₁ hstep₂
    rw [hcpu₁] at hheld
    exact hc.none_held h0 _ hheld

/-- **Entering `sched`.** In every reachable state the process that runs reaches the scheduler
through `yield` with no lock held and through `sleep` with its lock the only one, and never through
`SYS_EXIT`. -/
theorem giveUp_iff {s₀ : Kernel K} {as : List (Act K)} (h₀ : Boot s₀) (hrun : Run KernelStep s₀ as s)
    (hown : s.InOwn p) (w : GiveUp K) (hcalled : w.Called s) : ReachesScheduler s p w ↔
      w ≠ .exit ∧ (w = .yield → ∀ lk, ¬(s.cpu.lock lk).Held) := by
  obtain ⟨hs, hl⟩ := kernel_run h₀ hrun
  have hc := hl.counted
  cases w with
  | yield =>
    constructor
    · intro h
      exact ⟨by simp, fun _ => hc.none_held (yield_needs hc h)⟩
    · intro h
      apply yield_reaches hs hc hown
      rw [hc.ncli, heldCount]
      simp [h.2 rfl]
  | sleep chan lk => exact iff_of_true (sleep_reaches hs hc hown chan hcalled) ⟨by simp, by simp⟩
  | exit => exact iff_of_false (exit_never hc hcalled) (by simp)

end

/-- The first process yields behind its `fork_ret`. -/
theorem giveUp_iff_first : ∃ s : Kernel Unit, Run KernelStep bootKernel (firstProcess ++ [.go]) s ∧
    s.InOwn 0 ∧ ReachesScheduler s 0 .yield := by
  have hrun : (runActs (firstProcess ++ [.go]) (bootKernel : Kernel Unit)).map
      (fun s => decide (s.InOwn 0 ∧ s.cpu.ncli = 0)) = some true := by
    decide +kernel
  obtain ⟨s, hs, hown⟩ := Option.map_eq_some_iff.mp hrun
  obtain ⟨hown, hncli⟩ := of_decide_eq_true hown
  have hrun' := run_of_runActs hs
  have hc := (kernel_run boot_bootKernel hrun').2.counted
  have hiff := giveUp_iff boot_bootKernel hrun' hown .yield trivial
  exact ⟨s, hrun', hown, hiff.mpr ⟨by simp, fun _ => hc.none_held hncli⟩⟩

/-- The first process leaves its `fork_ret` and exits: the machine halts. -/
theorem exit_panics : ∃ s s' : Kernel Unit,
    Run KernelStep bootKernel (firstProcess ++ [.go]) s ∧ s.InOwn 0 ∧ GiveUp.Called s .exit ∧
    KernelStep s (.own 0 .exit) s' ∧ Act.exec .go s' = .error (.panic "sched ptable.lock") ∧
    ¬ReachesScheduler s 0 .exit := by
  have hrun : (runActs (firstProcess ++ [.go]) (bootKernel : Kernel Unit)).map
      (fun s => decide (s.InOwn 0 ∧ s.cpu.ncli = 0)) = some true := by
    decide +kernel
  obtain ⟨s, hs, hown⟩ := Option.map_eq_some_iff.mp hrun
  obtain ⟨hown, hncli⟩ := of_decide_eq_true hown
  have hrun' := run_of_runActs hs
  obtain ⟨hinv, hl⟩ := kernel_run boot_bootKernel hrun'
  have hq := (hinv.process 0 hown.2.1).1
  refine ⟨s, ((s.setCpu (cli s.cpu)).setState 0 .zombie).goto 0 (.sched .exit), hrun', hown, hncli,
    ⟨⟨hown, hncli⟩, ?_⟩, ?_, exit_never hl.counted hncli⟩
  · simp only [Act.exec, OwnCall.exec, sysExit, Kernel.setCpu_cproc, hq]
    rfl
  · obtain ⟨cpu, hhold, -⟩ := holding_ok hl.counted.spin.cli
      (show s.cpu.ncli < intMax by rw [hncli]; decide) LockId.ptable
    have hfree : ¬((cli s.cpu).lock .ptable).Held := hl.counted.none_held hncli _
    simp only [hfree, decide_false] at hhold
    simp only [Act.exec, Kernel.goto_running, Kernel.setState_running, Kernel.setCpu_running,
      hown.2.1, procStep, Kernel.goto_pc_self, sched, Kernel.goto_cpu,
      Kernel.setState_cpu, Kernel.setCpu_cpu, hhold]
    rfl

end TuixOS
