import TuixOS.SchedLocks

/-!
# No wakeup is lost

Waiters and wakers of one condition over the kernel machine: a waiter holds `lk`, finds the condition
false and calls `sleep(chan, lk)`, again and again; who holds `lk` may set the condition, and
`wakeup(chan)` may be called by any process or handler at any time.

From the test of the condition to `p->state = SLEEPING` a lock is held at every point, first `lk` and
then `ptable.lock`, so no other stack runs in between (`WaitInv.entering`), and a `wakeup` finds the
waiter either before its test or asleep.
-/

namespace TuixOS

open Lib

structure WaitState (K : Type) where
  kernel : Kernel K
  cond : Bool
  /-- A `wakeup(chan)` has completed since the condition became true. -/
  woken : Bool
  /-- The process has found the condition false and is not back from its `sleep`. -/
  waiting : Slot → Bool

inductive WaitAct (K : Type)
  | kernel (a : Act K)
  /-- `while (!cond)`: the test of a waiter. -/
  | test (p : Slot)
  | set (b : Bool)
  deriving DecidableEq

section Machine
variable {K : Type} [DecidableEq K]

/-- The running process comes back to its own code. -/
def Kernel.Returned (s s' : Kernel K) (p : Slot) : Prop :=
  s.running = some p ∧ s.pc p ≠ .own ∧ s'.pc p = .own

instance (s s' : Kernel K) (p : Slot) : Decidable (s.Returned s' p) :=
  inferInstanceAs (Decidable (_ ∧ _))

variable (chan : Word) (lk : LockId K)

/-- Behind its test a waiter calls `sleep`; `lk` is held at the test and where the condition is set. -/
def WaitAct.Enabled (w : WaitState K) : WaitAct K → Prop
  | .kernel a => a.Enabled w.kernel ∧
    ∀ p, w.kernel.InOwn p → w.waiting p = true → a = .own p (.sleep chan (some lk))
  | .test p => w.kernel.InOwn p ∧ w.waiting p = false ∧ (w.kernel.cpu.lock lk).Held
  | .set _ => (w.kernel.irq = true ∨ ∃ p, w.kernel.InOwn p ∧ w.waiting p = false) ∧
    (w.kernel.cpu.lock lk).Held

instance (w : WaitState K) : ∀ a : WaitAct K, Decidable (a.Enabled chan lk w)
  | .kernel a => inferInstanceAs (Decidable (a.Enabled w.kernel ∧
    ∀ p, w.kernel.InOwn p → w.waiting p = true → a = .own p (.sleep chan (some lk))))
  | .test p => inferInstanceAs
    (Decidable (w.kernel.InOwn p ∧ w.waiting p = false ∧ (w.kernel.cpu.lock lk).Held))
  | .set _ => inferInstanceAs
    (Decidable ((w.kernel.irq = true ∨ ∃ p, w.kernel.InOwn p ∧ w.waiting p = false) ∧
      (w.kernel.cpu.lock lk).Held))

def WaitAct.exec (w : WaitState K) : WaitAct K → Res (WaitState K)
  | .kernel a => do
    let s ← a.exec w.kernel
    return { w with
      kernel := s
      woken := w.woken || a = .lock (.wakeup chan)
      waiting := fun p => w.waiting p && !decide (w.kernel.Returned s p) }
  | .test p => .ok { w with waiting := Function.update w.waiting p (!w.cond) }
  | .set b => .ok { w with cond := b, woken := w.cond && b && w.woken }

def WaitStep (w : WaitState K) (a : WaitAct K) (w' : WaitState K) : Prop :=
  a.Enabled chan lk w ∧ a.exec chan w = .ok w'

end Machine

/-- No process waits when the kernel boots. -/
structure WaitBoot {K : Type} (w : WaitState K) : Prop where
  kernel : Boot w.kernel
  waiting : ∀ p, w.waiting p = false

/-! ## The invariant -/

section Invariant
variable {K : Type} [DecidableEq K] {s s' : Kernel K} {p : Slot} {chan : Word} {lk : LockId K}

/-- The lock held at each point from the test to `p->state = SLEEPING`. -/
def ProcPc.guard (lk : LockId K) : ProcPc K → Option (LockId K)
  | .own => some lk
  | .sleepUnlock _ | .sleepChan _ | .sleepState _ => some .ptable
  | _ => none

/-- Where a waiter can stand. -/
def ProcPc.Waits (chan : Word) (lk : LockId K) (pc : ProcPc K) : Prop :=
  pc = .own ∨ ∃ a, pc.args = some a ∧ a.chan = chan ∧ a.lk = lk

structure WaitInv [Fintype K] (chan : Word) (lk : LockId K) (w : WaitState K) : Prop where
  sched : SchedInv w.kernel
  locks : LockInv w.kernel
  used : ∀ p, w.waiting p = true → (w.kernel.proc p).state ≠ .unused
  waits : ∀ p, w.waiting p = true → (w.kernel.pc p).Waits chan lk
  entering : ∀ p l, w.waiting p = true → w.kernel.running = some p →
    (w.kernel.pc p).guard lk = some l →
    w.cond = false ∧ w.kernel.irq = false ∧ (w.kernel.cpu.lock l).Held
  asleep : ∀ p, w.waiting p = true → (w.kernel.proc p).state = .sleeping →
    (w.kernel.proc p).chan = chan → ¬(w.cond = true ∧ w.woken = true)

/-! ## What a step does to one process -/

/-- A slot in use stays in use. -/
theorem used_step {a : Act K} (hstep : StepCase s a s') (hp : (s.proc p).state ≠ .unused) :
    (s'.proc p).state ≠ .unused := by
  have hset : ∀ i st, st ≠ .unused → ((s.setState i st).proc p).state ≠ .unused := by
    intro i st hst
    rw [Kernel.setState_state]
    split_ifs
    · exact hst
    · exact hp
  have hupdate : ∀ i proc, ((s.proc i).state = .unused ∨ proc.state ≠ .unused) →
      (Function.update s.proc i proc p).state ≠ .unused := by
    intro i proc hproc
    by_cases hi : p = i
    · subst hi
      rw [Function.update_self]
      exact hproc.resolve_left hp
    · rwa [Function.update_of_ne hi]
  cases hstep with
  | run i hr hpc => exact hset i _ (by decide)
  | yieldState q r hr hpc hc => exact hset r _ (by decide)
  | sleepState q b hr hpc => exact hset b.p _ (by decide)
  | exit q r hr hncli hc => exact hset r _ (by decide)
  | sleepChan q b hr hpc => simpa using hp
  | sleepClear q b hr hpc => simpa using hp
  | wakeup ch cpu cpu' hr hacq hrel =>
    rcases wokenProc_state ch s.proc p with hsame | ⟨-, -, hrn⟩
    · exact hsame ▸ hp
    · show (wokenProc ch s.proc p).state ≠ .unused
      rw [hrn]
      decide
  | allocFail i hst proc hproc => exact hupdate i proc (Or.inl hst)
  | alloc kstack i hr hst proc hproc => exact hupdate i proc (Or.inl hst)
  | runnable i pgdir hr hst proc hproc => exact hupdate i proc (Or.inr (by rw [hproc]; decide))
  | _ => exact hp

omit [DecidableEq K] in
/-- The running process is not asleep before it has set its state. -/
theorem SchedInv.awake (h : SchedInv s) (hr : s.running = some p) (hnot : ¬(s.pc p).Stretch) :
    (s.proc p).state ≠ .sleeping := by
  rw [((h.process p hr).2.2 p).mpr ⟨rfl, hnot⟩]
  decide

omit [DecidableEq K] in
/-- A slot has been written with another state, so a process that sleeps is in another slot. -/
theorem sleeping_of_update {f : Slot → Proc} {i : Slot} {proc : Proc}
    (hst : (Function.update f i proc p).state = .sleeping) (hne : proc.state ≠ .sleeping) :
    (f p).state = .sleeping ∧ (Function.update f i proc p).chan = (f p).chan := by
  have hi : p ≠ i := by
    rintro rfl
    rw [Function.update_self] at hst
    exact hne hst
  rw [Function.update_of_ne hi] at hst ⊢
  exact ⟨hst, rfl⟩

omit [DecidableEq K] in
/-- The channel of a slot has been written, in a call that has not put its process to sleep. -/
theorem sleeping_of_setChan (h : SchedInv s) {q : Slot} {ch : Word} (hr : s.running = some q)
    (hnot : ¬(s.pc q).Stretch) (hst : ((s.setChan q ch).proc p).state = .sleeping) :
    (s.proc p).state = .sleeping ∧ ((s.setChan q ch).proc p).chan = (s.proc p).chan := by
  rw [Kernel.setChan_state] at hst
  have hq : p ≠ q := by
    rintro rfl
    exact h.awake hr hnot hst
  exact ⟨hst, by simp [Kernel.setChan, Function.update_of_ne hq]⟩

/-- A process that sleeps slept before, on the same channel, or has just gone to sleep. -/
theorem asleep_step {a : Act K} (h : SchedInv s) (hstep : StepCase s a s')
    (hst : (s'.proc p).state = .sleeping) :
    ((s.proc p).state = .sleeping ∧ (s'.proc p).chan = (s.proc p).chan ∧
      a ≠ .lock (.wakeup (s.proc p).chan)) ∨
    (s.running = some p ∧ (∃ b, s.pc p = .sleepState b) ∧ a = .go) := by
  cases hstep with
  | run | yieldState | exit =>
    -- the state written is another one
    obtain ⟨hp, hc⟩ := sleeping_of_update (f := s.proc) hst (by simp)
    exact Or.inl ⟨hp, hc, by simp⟩
  | sleepState q b hr hpc =>
    obtain rfl := h.mine q b (by rw [hpc]; rfl)
    by_cases hp : p = b.p
    · subst hp
      exact Or.inr ⟨hr.2, ⟨b, hpc⟩, rfl⟩
    · refine Or.inl ⟨?_, ?_, by simp⟩
      · rwa [Kernel.goto_proc, Kernel.setState_state, if_neg hp] at hst
      · simp [Kernel.setState, Function.update_of_ne hp]
  | sleepChan q b hr hpc =>
    obtain rfl := h.mine q b (by rw [hpc]; rfl)
    obtain ⟨hp, hc⟩ := sleeping_of_setChan h hr.2 (by rw [hpc]; exact id) hst
    exact Or.inl ⟨hp, hc, by simp⟩
  | sleepClear q b hr hpc =>
    obtain rfl := h.mine q b (by rw [hpc]; rfl)
    obtain ⟨hp, hc⟩ := sleeping_of_setChan h hr.2 (by rw [hpc]; exact id) hst
    exact Or.inl ⟨hp, hc, by simp⟩
  | wakeup ch cpu cpu' hr hacq hrel =>
    have hnot : ¬((s.proc p).state = .sleeping ∧ (s.proc p).chan = ch) := by
      intro hw
      simp only [wokenProc, if_pos hw] at hst
      cases hst
    have hsame : wokenProc ch s.proc p = s.proc p := by
      simp only [wokenProc, if_neg hnot]
    simp only [hsame] at hst ⊢
    refine Or.inl ⟨hst, trivial, ?_⟩
    rintro ⟨⟩
    exact hnot ⟨hst, rfl⟩
  | allocFail i hi proc hproc | alloc kstack i hr hi proc hproc | runnable i pgdir hr hi proc hproc =>
    obtain ⟨hp, hc⟩ := sleeping_of_update (f := s.proc) hst (by rw [hproc]; decide)
    exact Or.inl ⟨hp, hc, by simp⟩
  | _ => exact Or.inl ⟨hst, rfl, by simp⟩

/-- How the process `p` comes to stand at `pc` behind a step: it does not move, its slot is taken,
it goes on inside a function or back to its own code, or it calls a function. -/
inductive PcStep (s : Kernel K) (a : Act K) (p : Slot) (pc : ProcPc K) : Prop
  | still (h : pc = s.pc p)
  | taken (h : (s.proc p).state = .unused)
  | moved (hr : s.running = some p) (hown : s.pc p ≠ .own)
    (h : pc = .own ∨ pc.args = (s.pc p).args)
  | called (c : OwnCall K) (hr : s.InOwn p) (ha : a = .own p c)
    (h : ∀ chan lk, c = .sleep chan (some lk) → ∃ b, pc.args = some b ∧ b.chan = chan ∧ b.lk = lk)

omit [DecidableEq K] in
theorem PcStep.update {a : Act K} {q : Slot} {pc : ProcPc K} (h : PcStep s a q pc) (p : Slot) :
    PcStep s a p (Function.update s.pc q pc p) := by
  by_cases hq : p = q
  · subst hq
    rwa [Function.update_self]
  · rw [Function.update_of_ne hq]
    exact .still rfl

theorem pc_step {a : Act K} (h : SchedInv s) (hstep : StepCase s a s') (p : Slot) :
    PcStep s a p (s'.pc p) := by
  cases hstep with
  | unlock q l pc cpu hr hpc hcpu =>
    have hq : PcStep s .go q pc := by
      cases hp : s.pc q with
      | forkRet | yieldRelease =>
        rw [hp] at hpc
        cases hpc
        exact .moved hr.2 (by simp [hp]) (Or.inl rfl)
      | sleepUnlock b | sleepRelease b =>
        rw [hp] at hpc
        cases hpc
        exact .moved hr.2 (by simp [hp]) (Or.inr (by rw [hp]; rfl))
      | _ =>
        rw [hp] at hpc
        cases hpc
    exact hq.update p
  | yieldState q r hr hpc hc =>
    have hq : PcStep s .go q (.sched .yield) :=
      .moved hr.2 (by simp [hpc]) (Or.inr (by rw [hpc]; rfl))
    exact hq.update p
  | sleepChan q b hr hpc =>
    have hq : PcStep s .go q (.sleepState b) :=
      .moved hr.2 (by simp [hpc]) (Or.inr (by rw [hpc]; rfl))
    exact hq.update p
  | sleepState q b hr hpc =>
    have hq : PcStep s .go q (.sched (.sleep b)) :=
      .moved hr.2 (by simp [hpc]) (Or.inr (by rw [hpc]; rfl))
    exact hq.update p
  | sched q q' r cpu hr hpc hc hcpu hncli hst hif =>
    obtain rfl := h.self hr.2 hc
    have hq : PcStep s .go q (.switched r cpu.intena) :=
      .moved hr.2 (by simp [hpc]) (Or.inr (by rw [hpc]; cases r <;> rfl))
    exact hq.update p
  | switched q r intena hr hpc =>
    have hq : PcStep s .go q r.next := by
      refine .moved hr.2 (by simp [hpc]) ?_
      cases r with
      | yield | sleep => exact Or.inr (by rw [hpc]; rfl)
      | exit => exact Or.inl rfl
    exact hq.update p
  | sleepClear q b hr hpc =>
    have hq : PcStep s .go q (if b.lk ≠ .ptable then .sleepRelease b else .own) := by
      refine .moved hr.2 (by simp [hpc]) ?_
      split_ifs
      · exact Or.inr (by rw [hpc]; rfl)
      · exact Or.inl rfl
    exact hq.update p
  | sleepAcquire q b cpu hr hpc hcpu =>
    have hq : PcStep s .go q .own := .moved hr.2 (by simp [hpc]) (Or.inl rfl)
    exact hq.update p
  | yield q cpu hr hcpu =>
    have hq : PcStep s (.own q .yield) q .yieldState := .called .yield hr rfl (by simp)
    exact hq.update p
  | sleep q q' ch l cpu hr hc hl hcpu =>
    have hq : PcStep s (.own q (.sleep ch (some l))) q (.sleepUnlock ⟨q', ch, l⟩) := by
      refine .called _ hr rfl ?_
      rintro _ _ ⟨⟩
      exact ⟨_, rfl, rfl, rfl⟩
    exact hq.update p
  | sleepPtable q q' ch hr hc =>
    have hq : PcStep s (.own q (.sleep ch (some .ptable))) q (.sleepChan ⟨q', ch, .ptable⟩) := by
      refine .called _ hr rfl ?_
      rintro _ _ ⟨⟩
      exact ⟨_, rfl, rfl, rfl⟩
    exact hq.update p
  | exit q r hr hncli hc =>
    have hq : PcStep s (.own q .exit) q (.sched .exit) := .called .exit hr rfl (by simp)
    exact hq.update p
  | alloc kstack q hr hst proc hproc =>
    have hq : PcStep s (.alloc kstack) q .forkRet := .taken hst
    exact hq.update p
  | _ => exact .still rfl

omit [DecidableEq K] in
theorem ProcPc.Parked.guard {pc : ProcPc K} (h : pc.Parked) : pc.guard lk = none := by
  cases pc <;> first | rfl | exact absurd h id

/-- The lock of a process that goes to sleep stays held until it is asleep, and keeps the handlers
out. -/
theorem guard_step [Fintype K] {a : Act K} (h : SchedInv s) (hl : LockInv s)
    (hstep : StepCase s a s') {l : LockId K} (hr' : s'.running = some p)
    (hguard : (s'.pc p).guard lk = some l) (hnot : ¬s.Returned s' p)
    (hcall : s.InOwn p → a = .own p (.sleep chan (some lk)))
    (hheld : ∀ l, s.running = some p → (s.pc p).guard lk = some l →
      s.irq = false ∧ (s.cpu.lock l).Held) :
    s'.irq = false ∧ (s'.cpu.lock l).Held ∧ s.running = some p ∧
      ∃ l', (s.pc p).guard lk = some l' := by
  have hspin := hl.counted.spin
  -- the lock is the one that was held before
  have hstay : ∀ l, s.running = some p → (s.pc p).guard lk = some l → s.irq = false ∧
      (s.cpu.lock l).Held ∧ s.running = some p ∧ ∃ l', (s.pc p).guard lk = some l' := by
    intro l hr hg
    obtain ⟨hirq, hlock⟩ := hheld l hr hg
    exact ⟨hirq, hlock, hr, l, hg⟩
  -- the process that steps is `p`
  have hself : ∀ q, s.running = some q → s'.running = s.running → q = p := fun q hq hsame =>
    Option.some.inj (hq.symm.trans (hsame.symm.trans hr'))
  have hidle : s.running = none → s'.running ≠ s.running := by
    intro hn hsame
    rw [hsame, hn] at hr'
    cases hr'
  -- a handler or another call does not come in between
  have hout : (s.irq = true ∨ ∃ q, s.InOwn q) → s'.running = s.running → s'.pc p = s.pc p →
      ∃ q, a = .own q (.sleep chan (some lk)) := by
    intro hr hsame hpc
    rcases hr with hirq | ⟨q, hown⟩
    · rw [hpc] at hguard
      rw [(hheld l (hsame ▸ hr') hguard).1] at hirq
      cases hirq
    · obtain rfl := hself q hown.2.1 hsame
      exact ⟨q, hcall hown⟩
  cases hstep with
  | boot hr | sti hr | schedAcquire _ hr | skip _ hr | pick _ hr | scanEnd _ hr | uvm _ hr
  | run _ hr | back _ hr | schedRelease _ hr => exact absurd rfl (hidle hr.2)
  | switch i hr hpc =>
    obtain rfl : i = p := Option.some.inj hr'
    have hok := h.ok hr hpc
    have hpark : (s.pc i).Parked := h.parked i (by simp [hr.2]) (by rw [(hok.2 i).mpr rfl]; decide)
    exact absurd (hpark.guard.symm.trans hguard) (by simp)
  | unlock q l' pc cpu hr hpc hcpu =>
    obtain rfl := hself q hr.2 rfl
    rw [Kernel.goto_pc_self] at hguard
    cases hp : s.pc q with
    | forkRet | yieldRelease =>
      rw [hp] at hpc
      cases hpc
      exact absurd ⟨hr.2, by simp [hp], by rw [Kernel.goto_pc_self]⟩ hnot
    | sleepUnlock b =>
      -- `ptable.lock` is held, and the lock released is another one
      have hne := hl.swaps q b (by rw [hp]; rfl)
      have hg : (s.pc q).guard lk = some .ptable := by rw [hp]; rfl
      obtain ⟨hirq, hptable⟩ := hheld .ptable hr.2 hg
      obtain ⟨-, -, -, hlock⟩ := release_inv hspin hcpu
      rw [hp] at hpc
      cases hpc
      cases hguard
      refine ⟨hirq, ?_, hr.2, .ptable, rfl⟩
      show (cpu.lock .ptable).Held
      rwa [hlock, Function.update_of_ne (Ne.symm hne)]
    | _ =>
      rw [hp] at hpc
      cases hpc
      try cases hguard
  | yieldState q r hr hpc hc =>
    obtain rfl := hself q hr.2 rfl
    rw [Kernel.goto_pc_self] at hguard
    cases hguard
  | sleepChan q b hr hpc =>
    obtain rfl := hself q hr.2 rfl
    rw [Kernel.goto_pc_self] at hguard
    exact hstay l hr.2 (by rw [hpc]; exact hguard)
  | sleepState q b hr hpc =>
    obtain rfl := hself q hr.2 rfl
    rw [Kernel.goto_pc_self] at hguard
    cases hguard
  | sched q r => cases hr'
  | switched q r intena hr hpc =>
    obtain rfl := hself q hr.2 rfl
    cases r with
    | yield | sleep =>
      rw [Kernel.goto_pc_self] at hguard
      cases hguard
    | exit =>
      exact absurd ⟨hr.2, by simp [hpc], by rw [Kernel.goto_pc_self]; rfl⟩ hnot
  | sleepClear q b hr hpc =>
    obtain rfl := hself q hr.2 rfl
    by_cases hlk : b.lk = .ptable
    · refine absurd ⟨hr.2, by simp [hpc], ?_⟩ hnot
      rw [Kernel.goto_pc_self, if_neg (not_not.mpr hlk)]
    · rw [Kernel.goto_pc_self, if_pos hlk] at hguard
      cases hguard
  | sleepAcquire q b cpu hr hpc hcpu =>
    obtain rfl := hself q hr.2 rfl
    refine absurd ⟨hr.2, ?_, ?_⟩ hnot
    · simp [hpc]
    · rw [Kernel.goto_pc_self]
  | lockAcquire l' cpu hr =>
    obtain ⟨q, hq⟩ := hout hr rfl rfl
    cases hq
  | lockRelease l' cpu hr =>
    obtain ⟨q, hq⟩ := hout hr rfl rfl
    cases hq
  | wakeup ch cpu cpu' hr =>
    obtain ⟨q, hq⟩ := hout hr rfl rfl
    cases hq
  | setIF q b hr =>
    obtain ⟨q, hq⟩ := hout (Or.inr ⟨q, hr⟩) rfl rfl
    cases hq
  | yield q cpu hr hcpu =>
    obtain rfl := hself q hr.2.1 rfl
    cases hcall hr
  | exit q r hr hncli hc =>
    obtain rfl := hself q hr.2.1 rfl
    cases hcall hr
  | sleep q q' ch l' cpu hr hc hl' hcpu =>
    obtain rfl := hself q hr.2.1 rfl
    obtain ⟨-, -, hlock⟩ := acquire_inv hspin hcpu
    rw [Kernel.goto_pc_self] at hguard
    cases hguard
    exact ⟨hr.1, held_of_taken hlock, hr.2.1, lk, by rw [hr.2.2]; rfl⟩
  | sleepPtable q q' ch hr hc =>
    obtain rfl := hself q hr.2.1 rfl
    cases hcall hr
    have hg : (s.pc q).guard .ptable = some .ptable := by rw [hr.2.2]; rfl
    rw [Kernel.goto_pc_self] at hguard
    cases hguard
    exact hstay .ptable hr.2.1 hg
  | irqEnter hirq hif =>
    have hno := hl.counted.none_held (hl.counted.zero_of_flIF hif) l
    exact absurd (hheld l hr' hguard).2 hno
  | irqExit hirq hncli =>
    rw [(hheld l hr' hguard).1] at hirq
    cases hirq
  | alloc kstack q hr hst proc hproc =>
    have hne : p ≠ q := by
      rintro rfl
      exact h.creator hr (q := p) (by rw [hst]; decide) hr'
    rw [Kernel.goto_pc_of_ne hne] at hguard
    exact hstay l hr' hguard
  | allocNone kstack | allocFail q hst proc hproc | runnable q pgdir hr hst proc hproc =>
    exact hstay l hr' hguard

/-! ## Steps of waiters and wakers -/

variable [Fintype K] {w w' : WaitState K}

theorem WaitInv.kernel_step {a : Act K} (h : WaitInv chan lk w)
    (hstep : StepCase w.kernel a s')
    (hcall : ∀ p, w.kernel.InOwn p → w.waiting p = true → a = .own p (.sleep chan (some lk))) :
    WaitInv chan lk { w with
      kernel := s'
      woken := w.woken || a = .lock (.wakeup chan)
      waiting := fun p => w.waiting p && !decide (w.kernel.Returned s' p) } where
  sched := schedInv_step h.sched hstep
  locks := lockInv_step h.locks h.sched hstep
  used p hp := by
    simp only [Bool.and_eq_true] at hp
    exact used_step hstep (h.used p hp.1)
  waits p hp := by
    simp only [Bool.and_eq_true, Bool.not_eq_true', decide_eq_false_iff_not] at hp
    obtain ⟨hp, hnot⟩ := hp
    have hpc : PcStep w.kernel a p (s'.pc p) := pc_step h.sched hstep p
    cases hpc with
    | still hsame =>
      rw [hsame]
      exact h.waits p hp
    | taken hun => exact absurd hun (h.used p hp)
    | moved hr hown hargs =>
      rcases hargs with hback | hargs
      · exact absurd ⟨hr, hown, hback⟩ hnot
      · obtain ⟨b, hb, hcl⟩ := (h.waits p hp).resolve_left hown
        exact Or.inr ⟨b, hargs.trans hb, hcl⟩
    | called c hr ha hsleep =>
      have hc := ha.symm.trans (hcall p hr hp)
      cases hc
      exact Or.inr (hsleep chan lk rfl)
  entering p l hp hr hguard := by
    simp only [Bool.and_eq_true, Bool.not_eq_true', decide_eq_false_iff_not] at hp
    obtain ⟨hp, hnot⟩ := hp
    obtain ⟨hirq, hheld, hr₀, l', hguard₀⟩ := guard_step h.sched h.locks hstep hr hguard hnot
      (fun hown => hcall p hown hp) fun l' hr' hg => (h.entering p l' hp hr' hg).2
    exact ⟨(h.entering p l' hp hr₀ hguard₀).1, hirq, hheld⟩
  asleep p hp hst hchan := by
    simp only [Bool.and_eq_true] at hp
    rcases asleep_step h.sched hstep hst with ⟨hst₀, hsame, hne⟩ | ⟨hr, ⟨b, hpc⟩, -⟩
    · have hold := h.asleep p hp.1 hst₀ (hsame ▸ hchan)
      rw [← hsame, hchan] at hne
      simpa [hne] using hold
    · have hcond := (h.entering p .ptable hp.1 hr (by rw [hpc]; rfl)).1
      simp [hcond]

theorem WaitInv.test_step (h : WaitInv chan lk w) (hown : w.kernel.InOwn p)
    (hheld : (w.kernel.cpu.lock lk).Held) :
    WaitInv chan lk { w with waiting := Function.update w.waiting p (!w.cond) } := by
  have hst := h.sched.own_running hown
  -- another process waits as it did
  have hother : ∀ q, Function.update w.waiting p (!w.cond) q = true → q ≠ p →
      w.waiting q = true := by
    intro q hq hne
    rwa [Function.update_of_ne hne] at hq
  refine ⟨h.sched, h.locks, fun q hq => ?_, fun q hq => ?_, fun q l hq hr hguard => ?_,
    fun q hq hsl => ?_⟩
  · by_cases hqp : q = p
    · rw [hqp, hst]
      decide
    · exact h.used q (hother q hq hqp)
  · by_cases hqp : q = p
    · exact Or.inl (hqp ▸ hown.2.2)
    · exact h.waits q (hother q hq hqp)
  · obtain rfl : p = q := Option.some.inj (hown.2.1.symm.trans hr)
    rw [hown.2.2] at hguard
    cases hguard
    have hcond : (!w.cond) = true := by simpa using hq
    exact ⟨by simpa using hcond, hown.1, hheld⟩
  · have hqp : q ≠ p := by
      rintro rfl
      rw [hst] at hsl
      cases hsl
    exact h.asleep q (hother q hq hqp) hsl

theorem WaitInv.set_step (h : WaitInv chan lk w) (b : Bool)
    (hr : w.kernel.irq = true ∨ ∃ p, w.kernel.InOwn p ∧ w.waiting p = false) :
    WaitInv chan lk { w with cond := b, woken := w.cond && b && w.woken } where
  sched := h.sched
  locks := h.locks
  used := h.used
  waits := h.waits
  entering p l hp hrun hguard := by
    -- the setter is neither the process that goes to sleep nor a handler on top of it
    obtain ⟨-, hirq, -⟩ := h.entering p l hp hrun hguard
    rcases hr with hirq' | ⟨q, hown, hq⟩
    · rw [hirq] at hirq'
      cases hirq'
    · obtain rfl : q = p := Option.some.inj (hown.2.1.symm.trans hrun)
      rw [hp] at hq
      cases hq
  asleep p hp hst hchan := by
    have hold := h.asleep p hp hst hchan
    rintro ⟨-, hw⟩
    simp only [Bool.and_eq_true] at hw
    exact hold ⟨hw.1.1, hw.2⟩

theorem waitInv_step {a : WaitAct K} (h : WaitInv chan lk w) (hstep : WaitStep chan lk w a w') :
    WaitInv chan lk w' := by
  obtain ⟨hen, hexec⟩ := hstep
  cases a with
  | kernel a =>
    obtain ⟨s, hs, hexec⟩ := bind_eq_ok.mp hexec
    cases hexec
    exact h.kernel_step (KernelStep.cases ⟨hen.1, hs⟩) hen.2
  | test p =>
    cases hexec
    exact h.test_step hen.1 hen.2.2
  | set b =>
    cases hexec
    exact h.set_step b hen.1

theorem WaitBoot.inv (h : WaitBoot w) : WaitInv chan lk w where
  sched := h.kernel.schedInv
  locks := h.kernel.lockInv
  used p hp := by
    rw [h.waiting p] at hp
    cases hp
  waits p hp := by
    rw [h.waiting p] at hp
    cases hp
  entering p _ hp := by
    rw [h.waiting p] at hp
    cases hp
  asleep p hp := by
    rw [h.waiting p] at hp
    cases hp

/-- Where `sleep` returns, its lock is held and no other. -/
theorem sleep_returns {a : Act K} {b : SleepCall K} (hl : LockInv s) (hstep : StepCase s a s')
    (hr : s.Returned s' p) (hargs : (s.pc p).args = some b) :
    (s'.cpu.lock b.lk).Held ∧ (b.lk ≠ .ptable → ¬(s'.cpu.lock .ptable).Held) := by
  obtain ⟨hrun, hown, hback⟩ := hr
  have hself : ∀ q, s.running = some q → q = p := fun q hq => Option.some.inj (hq.symm.trans hrun)
  -- a step that moves `q` to a point inside a function is not the return of `p`
  have hinside : ∀ q pc, pc ≠ .own → Function.update s.pc q pc p ≠ .own := by
    intro q pc hpc
    by_cases hq : p = q
    · subst hq
      rwa [Function.update_self]
    · rwa [Function.update_of_ne hq]
  cases hstep with
  | sleepClear q b' hr hpc =>
    obtain rfl := hself q hr.2
    have hmet := hl.procMet hr hpc
    rw [hpc] at hargs
    cases hargs
    rw [Kernel.goto_pc_self] at hback
    by_cases hlk : b.lk = .ptable
    · exact ⟨hlk ▸ hmet.2.1, fun hne => absurd hlk hne⟩
    · rw [if_pos hlk] at hback
      cases hback
  | sleepAcquire q b' cpu hr hpc hcpu =>
    obtain rfl := hself q hr.2
    have hmet := hl.procMet hr hpc
    rw [hpc] at hargs
    cases hargs
    obtain ⟨hheld, h1⟩ := hl.counted.acquire_first (hmet hr.1) hcpu
    have hcounted := hl.counted.acquire hcpu
    exact ⟨hheld, fun hne hptable => hne (hcounted.eq_of_one h1 hptable hheld)⟩
  | unlock q l pc cpu hr hpc hcpu =>
    obtain rfl := hself q hr.2
    rw [Kernel.goto_pc_self] at hback
    cases hp : s.pc q with
    | sleepUnlock | sleepRelease =>
      rw [hp] at hpc
      cases hpc
      cases hback
    | forkRet | yieldRelease =>
      rw [hp] at hargs
      cases hargs
    | _ =>
      rw [hp] at hpc
      cases hpc
  | switched q r intena hr hpc =>
    obtain rfl := hself q hr.2
    rw [Kernel.goto_pc_self] at hback
    cases r with
    | yield | sleep => cases hback
    | exit =>
      rw [hpc] at hargs
      cases hargs
  | yieldState q | sleepChan q | sleepState q | sched q | yield q | sleep q | sleepPtable q
  | exit q | alloc q => exact absurd hback (hinside _ _ (by simp))
  | _ => exact absurd hback hown

/-- **No wakeup is lost.** In every reachable state in which the condition is true and a
`wakeup(chan)` has completed since it became true, no waiter that found it false sleeps on `chan`;
and a waiter comes back from `sleep` with `lk` held, and `ptable.lock` not unless it is `lk`. -/
theorem no_lost_wakeup {w₀ : WaitState K} {as : List (WaitAct K)} (h₀ : WaitBoot w₀)
    (hrun : Run (WaitStep chan lk) w₀ as w) :
    (w.cond = true → w.woken = true → ∀ p, w.waiting p = true →
      (w.kernel.proc p).state = .sleeping → (w.kernel.proc p).chan ≠ chan) ∧
    (∀ a w' p, WaitStep chan lk w a w' → w.waiting p = true → w.kernel.Returned w'.kernel p →
      (w'.kernel.cpu.lock lk).Held ∧ (lk ≠ .ptable → ¬(w'.kernel.cpu.lock .ptable).Held)) := by
  have h : WaitInv chan lk w :=
    hrun.state_invariant h₀.inv fun _ _ _ hinv hstep => waitInv_step hinv hstep
  refine ⟨fun hcond hwoken p hp hst hchan => h.asleep p hp hst hchan ⟨hcond, hwoken⟩,
    fun a w' p hstep hp hret => ?_⟩
  obtain ⟨hen, hexec⟩ := hstep
  cases a with
  | kernel a =>
    obtain ⟨s, hs, hexec⟩ := bind_eq_ok.mp hexec
    cases hexec
    obtain ⟨b, hargs, -, rfl⟩ := (h.waits p hp).resolve_left hret.2.1
    exact sleep_returns h.locks (KernelStep.cases ⟨hen.1, hs⟩) hret hargs
  | test q =>
    cases hexec
    exact absurd hret.2.2 hret.2.1
  | set b =>
    cases hexec
    exact absurd hret.2.2 hret.2.1

end Invariant

/-- The first process finds the condition false and sleeps, `n` statements long; a handler sets the
condition and wakes it behind the scan, and it takes `m` statements of its `sleep` again. -/
def sleptAndWoken (lk : LockId Unit) (n m : Nat) : List (WaitAct Unit) :=
  (firstProcess ++ [Act.go, .lock (.acquire lk)]).map .kernel ++ [.test 0] ++
  ([Act.own 0 (.sleep 1 (some lk))] ++ List.replicate (n + 67) Act.go ++
    [Act.irqEnter, .lock (.acquire lk)]).map .kernel ++ [.set true] ++
  ([Act.lock (.release lk), .lock (.wakeup 1), .irqExit] ++ List.replicate (5 + m) Act.go).map .kernel

def bootWait : WaitState Unit := ⟨bootKernel, false, false, fun _ => false⟩

theorem waitBoot_bootWait : WaitBoot bootWait := ⟨boot_bootKernel, fun _ => rfl⟩

def runWait (chan : Word) (lk : LockId Unit) : List (WaitAct Unit) → WaitState Unit →
    Option (WaitState Unit) :=
  runLabels (fun a w => a.Enabled chan lk w) fun a w => a.exec chan w

/-- The step with which the first process comes back from its sleep. -/
theorem sleptAndWoken_back (lk : LockId Unit) (n m : Nat) {P : WaitState Unit → Bool}
    (h : (runWait 1 lk (sleptAndWoken lk n m) bootWait).any (fun w =>
      (runWait 1 lk [.kernel .go] w).any fun w' =>
        w.waiting 0 && decide (w.kernel.Returned w'.kernel 0) && P w') = true) :
    ∃ w w', Run (WaitStep 1 lk) bootWait (sleptAndWoken lk n m) w ∧
      WaitStep 1 lk w (.kernel .go) w' ∧ w.waiting 0 = true ∧ w.kernel.Returned w'.kernel 0 ∧
      P w' = true := by
  obtain ⟨w, hw, h⟩ := (Option.any_eq_true _ _).mp h
  obtain ⟨w', hw', h⟩ := (Option.any_eq_true _ _).mp h
  simp only [Bool.and_eq_true, decide_eq_true_eq] at h
  exact ⟨w, w', run_of_runLabels hw, (run_of_runLabels hw').of_single, h.1.1, h.1.2, h.2⟩

theorem no_lost_wakeup_slept : ∃ w w', Run (WaitStep 1 (.other ())) bootWait
    (sleptAndWoken (.other ()) 4 3) w ∧ WaitStep 1 (.other ()) w (.kernel .go) w' ∧
    w.kernel.Returned w'.kernel 0 ∧ (w'.kernel.cpu.lock (.other ())).Held ∧
    ¬(w'.kernel.cpu.lock .ptable).Held := by
  obtain ⟨w, w', hrun, hstep, hwait, hret, -⟩ := sleptAndWoken_back (.other ()) 4 3
    (P := fun _ => true) (by decide +kernel)
  obtain ⟨-, hback⟩ := no_lost_wakeup waitBoot_bootWait hrun
  obtain ⟨hheld, hptable⟩ := hback _ w' 0 hstep hwait hret
  exact ⟨w, w', hrun, hstep, hret, hheld, hptable (by decide)⟩

/-- With `lk` the process table's own lock, the waiter comes back with `ptable.lock` held. -/
theorem ptable_held_after_sleep : ∃ w w', Run (WaitStep 1 .ptable) bootWait
    (sleptAndWoken .ptable 3 1) w ∧ WaitStep 1 .ptable w (.kernel .go) w' ∧ w.waiting 0 = true ∧
    w.kernel.Returned w'.kernel 0 ∧ (w'.kernel.cpu.lock .ptable).Held := by
  obtain ⟨w, w', hrun, hstep, hwait, hret, hheld⟩ := sleptAndWoken_back .ptable 3 1
    (P := fun w' => decide (w'.kernel.cpu.lock .ptable).Held) (by decide +kernel)
  exact ⟨w, w', hrun, hstep, hwait, hret, of_decide_eq_true hheld⟩

end TuixOS
