import TuixOS.Wakeup

/-!
# `ptable.lock` across the switches

A process takes `ptable.lock` on its own stack and gets it back from the scheduler, with whatever
`intena` the others have left in the CPU. `Within` says, for each place inside `yield` and `sleep`,
what is left of the CPU `c₀` that made the call: before the switch it is computed from `c₀`, in
between only `sched`'s local `intena` is (`Owed`), and behind it the CPU is put together again. With
it `lock_handover` gives the caller its CPU back, for all interleavings.
-/

namespace TuixOS

open Lib

/-! ## What a call gives back -/

section GivenBack
variable {L : Type} {c₀ c : Cpu L} {lk : L}

/-- `c` nests as `c₀` does, over the same interrupt state, with the same locks. -/
structure GivenBack (c₀ c : Cpu L) : Prop where
  ncli : c.ncli = c₀.ncli
  outside : c.outside = c₀.outside
  locks : ∀ lk, (c.lock lk).Held ↔ (c₀.lock lk).Held

theorem GivenBack.flIF (h : GivenBack c₀ c) (h₀ : SpinInv c₀) (hc : SpinInv c) :
    c.flIF = c₀.flIF := by
  have hnn := h₀.nonneg
  by_cases hz : c₀.ncli = 0
  · have hz' : c.ncli = 0 := by rw [h.ncli, hz]
    rw [← Cpu.outside_zero hz', ← Cpu.outside_zero hz, h.outside]
  · have hpos : 0 < c₀.ncli := by omega
    rw [hc.off (by rw [h.ncli]; exact hpos), h₀.off hpos]

variable [Fintype L]

/-- Without locks. -/
theorem Counted.givenBack_zero (h₀ : Counted c₀) (hc : Counted c) (hz₀ : c₀.ncli = 0)
    (hz : c.ncli = 0) (hout : c.outside = c₀.outside) : GivenBack c₀ c where
  ncli := by rw [hz, hz₀]
  outside := hout
  locks lk := iff_of_false (hc.none_held hz lk) (h₀.none_held hz₀ lk)

/-- With one lock. -/
theorem Counted.givenBack_one (h₀ : Counted c₀) (hc : Counted c) (hn₀ : c₀.ncli = 1)
    (hn : c.ncli = 1) (hheld₀ : (c₀.lock lk).Held) (hheld : (c.lock lk).Held)
    (hout : c.outside = c₀.outside) : GivenBack c₀ c where
  ncli := by rw [hn, hn₀]
  outside := hout
  locks lk' := by
    constructor
    · intro h
      rwa [hc.eq_of_one hn hheld h]
    · intro h
      rwa [h₀.eq_of_one hn₀ hheld₀ h]

end GivenBack

/-! ## Inside a call -/

section Within
variable {K : Type} [DecidableEq K]

/-- The interrupt state under the locks of the current stack: a handler runs on one that has
interrupts on. -/
def Kernel.outside (s : Kernel K) : Bool := s.irq || s.cpu.outside

/-- What `sched` has seen of the caller's CPU. -/
def SchedCaller.Owed (c₀ : Cpu (LockId K)) : SchedCaller K → Prop
  | .yield => c₀.ncli = 0
  | .sleep a => c₀.ncli = 1 ∧ (c₀.lock a.lk).Held
  | .exit => False

/-- `sleep` between its locks and `sched`. With `ptable.lock` for its lock it takes none; called
without it, `sched` will halt the machine. -/
def Swapped (c₀ : Cpu (LockId K)) (s : Kernel K) (lk : LockId K) : Prop :=
  if lk = .ptable then s.irq = false → s.cpu = c₀ ∨ ¬(s.cpu.lock .ptable).Held
  else ∃ c₁, acquire .ptable c₀ = .ok c₁ ∧ release lk c₁ = .ok s.cpu

/-- The process stands at `pc` in a call of `yield` or `sleep` that `c₀` made. -/
def Within (c₀ : Cpu (LockId K)) (s : Kernel K) : ProcPc K → Prop
  | .yieldState | .sched .yield | .sleepUnlock _ => acquire .ptable c₀ = .ok s.cpu
  | .sleepChan a | .sleepState a | .sched (.sleep a) => Swapped c₀ s a.lk
  | .switched r intena => r.Owed c₀ ∧ intena = c₀.outside
  | .yieldRelease => SchedCaller.Owed c₀ .yield ∧ s.cpu.intena = c₀.outside
  | .sleepClear a | .sleepRelease a => SchedCaller.Owed c₀ (.sleep a) ∧ s.cpu.intena = c₀.outside
  | .sleepAcquire a => SchedCaller.Owed c₀ (.sleep a) ∧ s.outside = c₀.outside
  | .forkRet | .own | .sched .exit => False

variable {s s' : Kernel K} {p : Slot} {c₀ : Cpu (LockId K)} {pc : ProcPc K}

/-- The places that depend on the state read the CPU and whether a handler runs. -/
theorem Within.congr (h : Within c₀ s pc) (hcpu : s'.cpu = s.cpu) (hirq : s'.irq = s.irq) :
    Within c₀ s' pc := by
  have hswap : ∀ lk, Swapped c₀ s lk → Swapped c₀ s' lk := by
    intro lk hs
    rw [Swapped, hcpu, hirq]
    exact hs
  have hout : s'.outside = s.outside := by rw [Kernel.outside, Kernel.outside, hcpu, hirq]
  cases pc with
  | yieldState | sleepUnlock | yieldRelease | sleepClear | sleepRelease =>
    simp only [Within, hcpu] at h ⊢
    exact h
  | sleepChan a | sleepState a => exact hswap a.lk h
  | sched r =>
    cases r with
    | yield =>
      simp only [Within, hcpu] at h ⊢
      exact h
    | sleep a => exact hswap a.lk h
    | exit => exact h
  | switched => exact h
  | sleepAcquire a => exact ⟨h.1, hout.trans h.2⟩
  | forkRet | own => exact h

/-- Interrupts are on, or a handler runs. -/
def Kernel.Open (s : Kernel K) : Prop := s.irq = true ∨ s.cpu.flIF = true

omit [DecidableEq K] in
theorem Kernel.Open.outside [Fintype K] (h : s.Open) (hc : Counted s.cpu) : s.outside = true := by
  rcases h with hirq | hif
  · simp [Kernel.outside, hirq]
  · simp [Kernel.outside, Cpu.outside_zero (hc.zero_of_flIF hif), hif]

omit [DecidableEq K] in
theorem Kernel.Open.not_held [Fintype K] (h : s.Open) (hc : Counted s.cpu) :
    ¬Demand.held.Met s := by
  rintro ⟨hoff, hheld⟩
  rcases h with hirq | hif
  · rw [hirq] at hoff
    cases hoff
  · exact hc.none_held (hc.zero_of_flIF hif) _ hheld

/-- Where interrupts can come, the locks and flags are not the caller's. -/
theorem Within.handler [Fintype K] (h : Within c₀ s pc) (hmet : pc.demand.Met s) (ho : s.Open)
    (hc : Counted s.cpu) (ho' : s'.Open) (hc' : Counted s'.cpu) : Within c₀ s' pc := by
  have hno := ho.not_held hc
  have hsleep : ∀ a : SleepCall K, (if a.lk = .ptable then Demand.any else .held).Met s →
      Swapped c₀ s' a.lk := by
    intro a ha
    by_cases hlk : a.lk = .ptable
    · rw [Swapped, if_pos hlk]
      exact fun hoff => Or.inr fun hheld => ho'.not_held hc' ⟨hoff, hheld⟩
    · rw [if_neg hlk] at ha
      exact absurd ha hno
  cases pc with
  | switched => exact h
  | sleepAcquire a => exact ⟨h.1, (ho'.outside hc').trans ((ho.outside hc).symm.trans h.2)⟩
  | sleepChan a | sleepState a => exact hsleep a hmet
  | sched r =>
    cases r with
    | yield => exact absurd hmet hno
    | sleep a => exact hsleep a hmet
    | exit => exact h
  | yieldState | sleepUnlock => exact absurd hmet hno
  | yieldRelease | sleepClear | sleepRelease => exact absurd ⟨hmet.1, hmet.2.1⟩ hno
  | forkRet | own => exact h

/-- Away from the CPU only `sched`'s local variable is left. -/
theorem Within.parked (h : Within c₀ s pc) (hp : pc.Parked) : Within c₀ s' pc := by
  cases pc with
  | switched => exact h
  | forkRet => exact h
  | _ => exact absurd hp id

/-! ## One step -/

/-- The process leaves for the scheduler: `sched` has met its guards. -/
theorem Within.leave {r : SchedCaller K} {cpu : Cpu (LockId K)} (h : Within c₀ s (.sched r))
    (h₀ : SpinInv c₀) (hirq : s.irq = false) (hspin : SpinInv s.cpu)
    (hcpu : holding .ptable s.cpu = .ok (true, cpu)) (hncli : cpu.ncli = 1) :
    r.Owed c₀ ∧ cpu.intena = c₀.outside := by
  obtain ⟨hheld, hn, -⟩ := holding_inv hspin hcpu
  have h1 : s.cpu.ncli = 1 := by
    have hncli' := hn.ncli
    omega
  have hintena : cpu.intena = s.cpu.outside := by
    rw [← hn.outside, Cpu.outside_ne_zero (by omega)]
  rw [hintena]
  cases r with
  | yield =>
    obtain ⟨-, hacq, -⟩ := acquire_inv h₀ h
    have hncli' := hacq.ncli
    refine ⟨?_, hacq.outside⟩
    show c₀.ncli = 0
    omega
  | sleep a =>
    have hswap : Swapped c₀ s a.lk := h
    by_cases hlk : a.lk = .ptable
    · rw [Swapped, if_pos hlk] at hswap
      have hc : s.cpu = c₀ := (hswap hirq).resolve_right (not_not.mpr (of_decide_eq_true hheld.symm))
      rw [← hc]
      exact ⟨⟨h1, by rw [hlk]; exact of_decide_eq_true hheld.symm⟩, rfl⟩
    · rw [Swapped, if_neg hlk] at hswap
      obtain ⟨c₁, hacq, hrel⟩ := hswap
      obtain ⟨-, hn₁, hl₁⟩ := acquire_inv h₀ hacq
      obtain ⟨hheld₁, -, hn₂, -⟩ := release_inv hn₁.inv hrel
      have hncli₁ := hn₁.ncli
      have hncli₂ := hn₂.ncli
      rw [hl₁, Function.update_of_ne hlk] at hheld₁
      exact ⟨⟨by omega, hheld₁⟩, hn₂.outside.trans hn₁.outside⟩
  | exit => exact absurd h id

variable [Fintype K]

/-- The call goes on, or has returned. -/
def CallStep (c₀ : Cpu (LockId K)) (s' : Kernel K) (pc : ProcPc K) : Prop :=
  pc = .own ∧ GivenBack c₀ s'.cpu ∨ Within c₀ s' pc

/-- The releases of `yield` and `sleep`. -/
theorem within_unlock {lk : LockId K} {cpu : Cpu (LockId K)} {pc' : ProcPc K}
    (h : Within c₀ s (s.pc p)) (h₀ : Counted c₀) (hl : LockInv s) (hr : s.Runs (some p))
    (hpc : (s.pc p).unlocks = some (lk, pc')) (hcpu : release lk s.cpu = .ok cpu)
    (hcpu' : s'.cpu = cpu) (hirq' : s'.irq = s.irq) : CallStep c₀ s' pc' := by
  have hc := hl.counted
  obtain ⟨-, -, hn, -⟩ := release_inv hc.spin hcpu
  have hncli := hn.ncli
  have hcounted : Counted s'.cpu := hcpu' ▸ hc.release hcpu
  cases hp : s.pc p with
  | sleepUnlock a =>
    have hne := hl.swaps p a (by rw [hp]; rfl)
    rw [hp] at hpc h
    cases hpc
    refine Or.inr ?_
    show Swapped c₀ s' a.lk
    rw [Swapped, if_neg hne, hcpu']
    exact ⟨s.cpu, h, hcpu⟩
  | yieldRelease =>
    have hmet := hl.procMet hr hp
    rw [hp] at hpc h
    cases hpc
    refine Or.inl ⟨rfl, h₀.givenBack_zero hcounted h.1 ?_ ?_⟩
    · rw [hcpu', hncli, hmet.2.2]
      rfl
    · rw [hcpu', hn.outside, Cpu.outside_ne_zero (by rw [hmet.2.2]; decide)]
      exact h.2
  | sleepRelease a =>
    have hmet := hl.procMet hr hp
    rw [hp] at hpc h
    cases hpc
    refine Or.inr ⟨h.1, ?_⟩
    rw [Kernel.outside, hcpu', hirq', hr.1, Bool.false_or, hn.outside,
      Cpu.outside_ne_zero (by rw [hmet.2.2]; decide)]
    exact h.2
  | forkRet =>
    rw [hp] at h
    exact absurd h id
  | _ =>
    rw [hp] at hpc
    cases hpc

theorem within_step {a : Act K} (h : Within c₀ s (s.pc p)) (h₀ : Counted c₀) (hs : SchedInv s)
    (hl : LockInv s) (hused : (s.proc p).state ≠ .unused) (hstep : StepCase s a s') :
    CallStep c₀ s' (s'.pc p) := by
  have hc := hl.counted
  have hl' := lockInv_step hl hs hstep
  have hown : s.pc p ≠ .own := by
    intro he
    rw [he] at h
    exact h
  by_cases hrun : s.running = some p
  · have hself : ∀ q, s.running = some q → q = p := fun q hq => Option.some.inj (hq.symm.trans hrun)
    have hnone : s.running ≠ none := by simp [hrun]
    have hnot : ∀ q, ¬s.InOwn q := by
      intro q hq
      obtain rfl := hself q hq.2.1
      exact hown hq.2.2
    have hmet : (s.pc p).demand.Met s := by
      have hmet := hl.met
      rwa [Kernel.demand_process hrun] at hmet
    have hhandler : s.Open → s'.Open → s'.pc p = s.pc p → CallStep c₀ s' (s'.pc p) := by
      intro ho ho' hpc
      rw [hpc]
      exact Or.inr (h.handler hmet ho hc ho' hl'.counted)
    have hstill : s'.cpu = s.cpu → s'.irq = s.irq → s'.pc p = s.pc p → CallStep c₀ s' (s'.pc p) := by
      intro hcpu hirq hpc
      rw [hpc]
      exact Or.inr (h.congr hcpu hirq)
    cases hstep with
    | boot hr | sti hr | schedAcquire _ hr | skip _ hr | pick _ hr | scanEnd _ hr | uvm _ hr
    | run _ hr | switch _ hr | back _ hr | schedRelease _ hr => exact absurd hr.2 hnone
    | yield q _ hr | sleep q _ _ _ _ hr | sleepPtable q _ _ hr | exit q _ hr | setIF q _ hr =>
      exact absurd hr (hnot q)
    | unlock q lk pc cpu hr hpc hcpu =>
      obtain rfl := hself q hr.2
      rw [Kernel.goto_pc_self]
      exact within_unlock h h₀ hl hr hpc hcpu rfl rfl
    | yieldState q _ hr hpc | sleepChan q _ hr hpc | sleepState q _ hr hpc =>
      obtain rfl := hself q hr.2
      rw [hpc] at h
      rw [Kernel.goto_pc_self]
      exact Or.inr h
    | sched q q' r cpu hr hpc hq hcpu hncli hst hif =>
      obtain rfl := hself q hr.2
      obtain rfl := hs.self hr.2 hq
      rw [hpc] at h
      show CallStep c₀ _ (Function.update s.pc q (.switched r cpu.intena) q)
      rw [Function.update_self]
      exact Or.inr (h.leave h₀.spin hr.1 hc.spin hcpu hncli)
    | switched q r intena hr hpc =>
      obtain rfl := hself q hr.2
      rw [hpc] at h
      rw [Kernel.goto_pc_self]
      cases r with
      | yield | sleep => exact Or.inr h
      | exit => exact absurd h.1 id
    | sleepClear q a hr hpc =>
      obtain rfl := hself q hr.2
      have hptable := hl.procMet hr hpc
      rw [hpc] at h
      rw [Kernel.goto_pc_self]
      by_cases hlk : a.lk = .ptable
      · rw [if_neg (not_not.mpr hlk)]
        refine Or.inl ⟨rfl, h₀.givenBack_one hc h.1.1 hptable.2.2 h.1.2 ?_ ?_⟩
        · rw [hlk]
          exact hptable.2.1
        · show s.cpu.outside = c₀.outside
          rw [Cpu.outside_ne_zero (by rw [hptable.2.2]; decide)]
          exact h.2
      · rw [if_pos hlk]
        exact Or.inr h
    | sleepAcquire q a cpu hr hpc hcpu =>
      obtain rfl := hself q hr.2
      have hfree := hl.procMet hr hpc hr.1
      rw [hpc] at h
      rw [Kernel.goto_pc_self]
      obtain ⟨hheld, h1⟩ := hc.acquire_first hfree hcpu
      obtain ⟨-, hn, -⟩ := acquire_inv hc.spin hcpu
      refine Or.inl ⟨rfl, h₀.givenBack_one (hc.acquire hcpu) h.1.1 h1 h.1.2 hheld ?_⟩
      show cpu.outside = c₀.outside
      rw [hn.outside, ← h.2, Kernel.outside, hr.1, Bool.false_or]
    | lockAcquire _ _ hr | lockRelease _ _ hr | wakeup _ _ _ hr =>
      have hirq := hr.resolve_right fun ⟨q, hq⟩ => hnot q hq
      exact hhandler (Or.inl hirq) (Or.inl hirq) rfl
    | irqEnter hirq hif => exact hhandler (Or.inr hif) (Or.inl rfl) rfl
    | irqExit hirq hncli => exact hhandler (Or.inl hirq) (Or.inr rfl) rfl
    | allocNone | allocFail | runnable => exact hstill rfl rfl rfl
    | alloc kstack q hr hst proc hproc =>
      have hne : p ≠ q := by
        rintro rfl
        exact hused hst
      refine hstill rfl rfl ?_
      rw [Kernel.goto_pc_of_ne hne]
  · -- another stack runs, and the process stays where it has switched away
    have hpc : s'.pc p = s.pc p := by
      cases pc_step hs hstep p with
      | still h => exact h
      | taken h => exact absurd h hused
      | moved hr => exact absurd hr hrun
      | called c hr => exact absurd hr.2.1 hrun
    rw [hpc]
    exact Or.inr (h.parked (hs.parked p hrun hused))

omit [Fintype K] in
/-- The first statements of a call. -/
theorem within_call {c : OwnCall K} (hcall : c = .yield ∨ ∃ chan lk, c = .sleep chan lk)
    (hstep : StepCase s (.own p c) s') : Within s.cpu s' (s'.pc p) := by
  cases hstep with
  | yield p cpu hr hcpu =>
    rw [Kernel.goto_pc_self]
    exact hcpu
  | sleep p q chan lk cpu hr hq hlk hcpu =>
    rw [Kernel.goto_pc_self]
    exact hcpu
  | sleepPtable p q chan hr hq =>
    rw [Kernel.goto_pc_self]
    exact fun _ => Or.inl rfl
  | exit => simp at hcall
  | setIF => simp at hcall

/-- A step after which `p` is not in its own code. -/
def InsideStep (p : Slot) (s : Kernel K) (a : Act K) (s' : Kernel K) : Prop :=
  KernelStep s a s' ∧ s'.pc p ≠ .own

/-- A call as far as it has got. -/
structure CallInv (c₀ : Cpu (LockId K)) (p : Slot) (s : Kernel K) : Prop where
  sched : SchedInv s
  locks : LockInv s
  used : (s.proc p).state ≠ .unused
  within : Within c₀ s (s.pc p)

theorem CallInv.step {a : Act K} (h : CallInv c₀ p s) (h₀ : Counted c₀)
    (hstep : InsideStep p s a s') : CallInv c₀ p s' where
  sched := schedInv_step h.sched hstep.1.cases
  locks := lockInv_step h.locks h.sched hstep.1.cases
  used := used_step hstep.1.cases h.used
  within := (within_step h.within h₀ h.sched h.locks h.used hstep.1.cases).resolve_left
    fun hback => hstep.2 hback.1

/-- `switch_to` is called with `ptable.lock` held. -/
theorem switch_locked {a : Act K} (hs : SchedInv s) (hl : LockInv s) (hstep : StepCase s a s')
    (hswitch : s'.running ≠ s.running) :
    (s'.cpu.lock .ptable).Held ∧ s'.cpu.ncli = 1 ∧ s'.cpu.flIF = false := by
  have hl' := lockInv_step hl hs hstep
  have hs' := schedInv_step hs hstep
  have honly : s'.demand = .only := by
    cases hstep with
    | switch i hr hpc =>
      have hok := hs.ok hr hpc
      have hpark : (s.pc i).Parked :=
        hs.parked i (by simp [hr.2]) (by rw [(hok.2 i).mpr rfl]; decide)
      rw [Kernel.demand_process rfl]
      exact hpark.demand
    | sched p q r cpu hr =>
      rw [Kernel.demand_sched rfl]
      show s.schedPc.demand = .only
      rw [(hs.process p hr.2).2.1]
      rfl
    | _ => exact absurd rfl hswitch
  have hmet := hl'.met
  rw [honly] at hmet
  exact ⟨hmet.2.1, hmet.2.2, hl'.counted.spin.off (by rw [hmet.2.2]; decide)⟩

/-- **Lock hand-over.** Every `switch_to` is made with `ptable.lock` held once and interrupts off;
and a call of `yield` or `sleep` returns with `ncli`, the interrupt flag and the locks as they were,
whatever has run between. -/
theorem lock_handover {s₀ : Kernel K} {as : List (Act K)} (h₀ : Boot s₀)
    (hrun : Run KernelStep s₀ as s) :
    (∀ a s', KernelStep s a s' → s'.running ≠ s.running →
      (s'.cpu.lock .ptable).Held ∧ s'.cpu.ncli = 1 ∧ s'.cpu.flIF = false) ∧
    (∀ p c s₁ bs s₂ a s₃, (c = .yield ∨ ∃ chan lk, c = .sleep chan lk) →
      KernelStep s (.own p c) s₁ → Run (InsideStep p) s₁ bs s₂ → KernelStep s₂ a s₃ →
      s₃.pc p = .own →
      s₃.cpu.ncli = s.cpu.ncli ∧ s₃.cpu.flIF = s.cpu.flIF ∧
        ∀ lk, (s₃.cpu.lock lk).Held ↔ (s.cpu.lock lk).Held) := by
  obtain ⟨hs, hl⟩ := kernel_run h₀ hrun
  refine ⟨fun a s' hstep => switch_locked hs hl hstep.cases,
    fun p c s₁ bs s₂ a s₃ hcall hstep hrun' hback hown => ?_⟩
  have hc := hl.counted
  have hused : (s.proc p).state ≠ .unused := by
    rw [hs.own_running hstep.1.1]
    decide
  have hcall₁ : CallInv s.cpu p s₁ := ⟨schedInv_step hs hstep.cases, lockInv_step hl hs hstep.cases,
    used_step hstep.cases hused, within_call hcall hstep.cases⟩
  have hcall₂ : CallInv s.cpu p s₂ :=
    hrun'.state_invariant hcall₁ fun _ _ _ h hin => h.step hc hin
  have hstep₃ := hback.cases
  have hspin₃ := (lockInv_step hcall₂.locks hcall₂.sched hstep₃).counted.spin
  rcases within_step hcall₂.within hc hcall₂.sched hcall₂.locks hcall₂.used hstep₃ with
    ⟨-, hgiven⟩ | hwithin
  · exact ⟨hgiven.ncli, hgiven.flIF hc.spin hspin₃, hgiven.locks⟩
  · rw [hown] at hwithin
    exact absurd hwithin id

end Within

section Yield
variable {K : Type} [DecidableEq K]

/-- A step that does not bring `p` back to its own code. -/
def execInside (p : Slot) (a : Act K) (s : Kernel K) : Res (Kernel K) := do
  let s' ← a.exec s
  if s'.pc p = .own then throw .diverge else return s'

theorem run_of_execInside {p : Slot} {as : List (Act K)} {s s' : Kernel K}
    (h : runLabels Act.Enabled (execInside p) as s = some s') : Run (InsideStep p) s as s' := by
  refine (run_of_runLabels h).mono fun a t t' ⟨hen, hexec⟩ => ?_
  obtain ⟨u, hu, hexec⟩ := bind_eq_ok.mp hexec
  split_ifs at hexec with hown
  cases hexec
  exact ⟨⟨hen, hu⟩, hown⟩

end Yield

/-- The first process yields in a system call, with interrupts off; the scheduler turns them on
before it runs the process again. -/
theorem lock_handover_yield : ∃ s s₁ s₂ s₃ : Kernel Unit,
    Run KernelStep bootKernel (firstProcess ++ [.go, .own 0 (.setIF false)]) s ∧
      KernelStep s (.own 0 .yield) s₁ ∧ Run (InsideStep 0) s₁ (List.replicate 75 .go) s₂ ∧
      KernelStep s₂ .go s₃ ∧ s₃.pc 0 = .own ∧ s.cpu.flIF = false ∧ s₃.cpu.flIF = false := by
  have hexec : (runActs (firstProcess ++ [.go, .own 0 (.setIF false)])
      (bootKernel : Kernel Unit)).any (fun s => (runActs [.own 0 .yield] s).any fun s₁ =>
        (runLabels Act.Enabled (execInside 0) (List.replicate 75 .go) s₁).any fun s₂ =>
          (runActs [.go] s₂).any fun s₃ => decide (s₃.pc 0 = .own) && !s.cpu.flIF) = true := by
    decide +kernel
  obtain ⟨s, hs, hexec⟩ := (Option.any_eq_true _ _).mp hexec
  obtain ⟨s₁, hs₁, hexec⟩ := (Option.any_eq_true _ _).mp hexec
  obtain ⟨s₂, hs₂, hexec⟩ := (Option.any_eq_true _ _).mp hexec
  obtain ⟨s₃, hs₃, hexec⟩ := (Option.any_eq_true _ _).mp hexec
  simp only [Bool.and_eq_true, decide_eq_true_eq, Bool.not_eq_true'] at hexec
  have hcall : KernelStep s (.own 0 .yield) s₁ := (run_of_runActs hs₁).of_single
  have hback : KernelStep s₂ .go s₃ := (run_of_runActs hs₃).of_single
  have hrun := run_of_runActs hs
  have hrun' := run_of_execInside hs₂
  obtain ⟨-, hcalls⟩ := lock_handover boot_bootKernel hrun
  obtain ⟨-, hif, -⟩ := hcalls 0 .yield s₁ _ s₂ .go s₃ (Or.inl rfl) hcall hrun' hback hexec.1
  exact ⟨s, s₁, s₂, s₃, hrun, hcall, hrun', hback, hexec.1, hexec.2, hif.trans hexec.2⟩

end TuixOS
