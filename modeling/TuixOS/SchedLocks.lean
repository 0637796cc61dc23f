import TuixOS.Scheduler

/-!
# The locks across the stacks

Without calls of `pushcli` from outside `spinlock.c`, `ncli` counts the locks held (`Counted`).
`LockInv` adds what each place in the code demands of `ptable.lock`, which is handed over between
the stacks: the scheduler takes it and the process releases it, and the other way round.
-/

namespace TuixOS

open Lib

section Counted
variable {L : Type} [Fintype L] {c c' : Cpu L} {lk lk' : L}

/-- Every level of nesting is a lock held. -/
structure Counted (c : Cpu L) : Prop where
  spin : SpinInv c
  ncli : c.ncli = heldCount c

theorem Counted.of_lock (h : Counted c) (hspin : SpinInv c') (hncli : c'.ncli = c.ncli)
    (hl : c'.lock = c.lock) : Counted c' :=
  ⟨hspin, by rw [hncli, h.ncli, heldCount, heldCount, hl]⟩

theorem Counted.none_held (h : Counted c) (h0 : c.ncli = 0) (lk : L) : ¬(c.lock lk).Held := by
  intro hheld
  have hcard : (Finset.univ.filter fun lk => (c.lock lk).Held).card = 0 := by
    have hncli := h.ncli
    rw [h0, heldCount] at hncli
    exact_mod_cast hncli.symm
  have hmem : lk ∈ Finset.univ.filter fun lk => (c.lock lk).Held := by simp [hheld]
  rw [Finset.card_eq_zero.mp hcard] at hmem
  exact absurd hmem (Finset.notMem_empty lk)

/-- With interrupts on, no lock is held. -/
theorem Counted.zero_of_flIF (h : Counted c) (hif : c.flIF = true) : c.ncli = 0 := by
  have hnn := h.spin.nonneg
  by_contra hne
  have hoff := h.spin.off (by omega)
  rw [hif] at hoff
  cases hoff

/-- The only lock held is the one that makes `ncli` 1. -/
theorem Counted.eq_of_one (h : Counted c) (h1 : c.ncli = 1) (hheld : (c.lock lk).Held)
    (hheld' : (c.lock lk').Held) : lk' = lk := by
  have hcard : (Finset.univ.filter fun lk => (c.lock lk).Held).card ≤ 1 := by
    have hncli := h.ncli
    rw [h1, heldCount] at hncli
    exact_mod_cast hncli.symm.le
  exact Finset.card_le_one.mp hcard _ (by simp [hheld']) _ (by simp [hheld])

variable [DecidableEq L]

theorem Counted.step (h : Counted c) {op : SpinOp L} (hop : outstanding [op] = 0)
    (hstep : SpinStep c op c') : Counted c' := by
  have hn := hstep.nests h.spin
  refine ⟨hn.inv, ?_⟩
  rw [hn.ncli, h.ncli, hop]
  omega

theorem Counted.acquire (h : Counted c) (hrun : acquire lk c = .ok c') : Counted c' :=
  h.step (show outstanding [.acquire lk] = 0 from rfl) hrun

theorem Counted.release (h : Counted c) (hrun : release lk c = .ok c') : Counted c' :=
  h.step (show outstanding [.release lk] = 0 from rfl) hrun

end Counted

/-! ## What each place demands -/

/-- What code relies on about `ptable.lock`. -/
inductive Demand
  /-- It is held, and no other lock. -/
  | only
  | held
  /-- No lock is held. -/
  | free
  | any
  deriving DecidableEq

def ProcPc.demand {K : Type} [DecidableEq K] : ProcPc K → Demand
  | .forkRet | .switched _ _ | .yieldRelease | .sleepClear _ | .sleepRelease _ => .only
  | .yieldState | .sched .yield | .sleepUnlock _ => .held
  | .sleepChan a | .sleepState a | .sched (.sleep a) => if a.lk = .ptable then .any else .held
  | .sleepAcquire _ | .sched .exit => .free
  | .own => .any

def SchedPc.demand : SchedPc → Demand
  | .scan _ | .uvm _ | .run _ | .switch _ | .back _ | .release => .only
  | .boot | .sti | .acquire => .free

section Locks
variable {K : Type} [DecidableEq K]

def Kernel.demand (s : Kernel K) : Demand :=
  match s.running with
  | none => s.schedPc.demand
  | some p => (s.pc p).demand

/-- A handler runs only over code that needs no lock, and may hold locks of its own. -/
def Demand.Met (s : Kernel K) : Demand → Prop
  | .only => s.irq = false ∧ (s.cpu.lock .ptable).Held ∧ s.cpu.ncli = 1
  | .held => s.irq = false ∧ (s.cpu.lock .ptable).Held
  | .free => s.irq = false → s.cpu.ncli = 0
  | .any => True

/-- Where `sleep` has taken `ptable.lock` itself, its lock is another one. -/
def ProcPc.swaps {K : Type} : ProcPc K → Option (SleepCall K)
  | .sleepUnlock a | .sleepRelease a | .sleepAcquire a => some a
  | _ => none

structure LockInv [Fintype K] (s : Kernel K) : Prop where
  counted : Counted s.cpu
  met : s.demand.Met s
  swaps : ∀ p a, (s.pc p).swaps = some a → a.lk ≠ .ptable

variable {s s' : Kernel K} {p : Slot}

theorem Kernel.demand_process (hr : s.running = some p) : s.demand = (s.pc p).demand := by
  simp only [Kernel.demand, hr]

theorem Kernel.demand_sched (hr : s.running = none) : s.demand = s.schedPc.demand := by
  simp only [Kernel.demand, hr]

omit [DecidableEq K] in
theorem Demand.Met.congr {d : Demand} (h : d.Met s) (hirq : s'.irq = s.irq)
    (hcpu : s'.cpu = s.cpu) : d.Met s' := by
  cases d <;> simp only [Demand.Met, hirq, hcpu] at h ⊢ <;> exact h

/-- Calls of handlers, and of code that demands nothing, keep the demand met. -/
theorem Demand.Met.call (h : s.demand.Met s) (hr : s.irq = true ∨ ∃ p, s.InOwn p)
    (hirq : s'.irq = s.irq) (hdemand : s'.demand = s.demand) : s'.demand.Met s' := by
  rw [hdemand]
  rcases hr with hr | ⟨p, hown⟩
  · cases hd : s.demand <;> rw [hd] at h
    · rw [h.1] at hr
      cases hr
    · rw [h.1] at hr
      cases hr
    · intro hoff
      rw [hirq, hr] at hoff
      cases hoff
    · trivial
  · rw [Kernel.demand_process hown.2.1, hown.2.2]
    trivial

theorem ProcPc.Parked.demand {pc : ProcPc K} (h : pc.Parked) : pc.demand = .only := by
  cases pc <;> first | rfl | exact absurd h id

variable [Fintype K]

omit [Fintype K] [DecidableEq K] in
/-- A process has moved to a place from which it swaps no lock for `ptable.lock` itself. -/
theorem swaps_update (h : ∀ q a, (s.pc q).swaps = some a → a.lk ≠ .ptable) {pc : ProcPc K}
    (hswaps : ∀ a, pc.swaps = some a → a.lk ≠ .ptable) (q : Slot) (a : SleepCall K)
    (ha : (Function.update s.pc p pc q).swaps = some a) : a.lk ≠ .ptable := by
  by_cases hq : q = p
  · subst hq
    rw [Function.update_self] at ha
    exact hswaps a ha
  · rw [Function.update_of_ne hq] at ha
    exact h q a ha

/-- Only what the new place demands and the lock function did is left to show. -/
theorem LockInv.goto (h : LockInv s) {pc : ProcPc K} (hcounted : Counted s'.cpu)
    (hr : s'.running = some p) (hpc : s'.pc = Function.update s.pc p pc) (hmet : pc.demand.Met s')
    (hswaps : ∀ a, pc.swaps = some a → a.lk ≠ .ptable) : LockInv s' where
  counted := hcounted
  met := by
    rw [Kernel.demand_process hr, hpc, Function.update_self]
    exact hmet
  swaps q a ha := by
    rw [hpc] at ha
    exact swaps_update h.swaps hswaps q a ha

theorem LockInv.schedMove (h : LockInv s) (hcounted : Counted s'.cpu) (hr : s'.running = none)
    (hpc : s'.pc = s.pc) (hmet : s'.schedPc.demand.Met s') : LockInv s' where
  counted := hcounted
  met := by
    rw [Kernel.demand_sched hr]
    exact hmet
  swaps := by
    rw [hpc]
    exact h.swaps

theorem LockInv.procMet (h : LockInv s) {pc : ProcPc K} (hr : s.Runs (some p)) (hpc : s.pc p = pc) :
    pc.demand.Met s := by
  have hmet := h.met
  rwa [Kernel.demand_process hr.2, hpc] at hmet

theorem LockInv.schedMet (h : LockInv s) {pc : SchedPc} (hr : s.Runs none) (hpc : s.schedPc = pc) :
    pc.demand.Met s := by
  have hmet := h.met
  rwa [Kernel.demand_sched hr.2, hpc] at hmet

/-- A lock was taken while no lock was held. -/
theorem Counted.acquire_first {cpu cpu' : Cpu (LockId K)} {lk : LockId K} (h : Counted cpu)
    (h0 : cpu.ncli = 0) (hrun : TuixOS.acquire lk cpu = .ok cpu') :
    (cpu'.lock lk).Held ∧ cpu'.ncli = 1 := by
  obtain ⟨-, hn, hl⟩ := acquire_inv h.spin hrun
  refine ⟨held_of_taken hl, ?_⟩
  rw [hn.ncli, h0]
  rfl

theorem lockInv_unlock {lk : LockId K} {pc : ProcPc K} {cpu : Cpu (LockId K)} (h : LockInv s)
    (hr : s.Runs (some p)) (hpc : (s.pc p).unlocks = some (lk, pc))
    (hcpu : release lk s.cpu = .ok cpu) : LockInv ((s.setCpu cpu).goto p pc) := by
  obtain ⟨-, -, hn, hl⟩ := release_inv h.counted.spin hcpu
  have hncli := hn.ncli
  refine h.goto (h.counted.release hcpu) hr.2 rfl ?_ ?_
  · cases hp : s.pc p with
    | forkRet | yieldRelease =>
      rw [hp] at hpc
      cases hpc
      trivial
    | sleepRelease a =>
      have hmet := h.procMet hr hp
      rw [hp] at hpc
      cases hpc
      intro _
      show cpu.ncli = 0
      rw [hncli, hmet.2.2]
      rfl
    | sleepUnlock a =>
      have hmet := h.procMet hr hp
      have hne := h.swaps p a (by rw [hp]; rfl)
      rw [hp] at hpc
      cases hpc
      simp only [ProcPc.demand, if_neg hne]
      refine ⟨hr.1, ?_⟩
      show (cpu.lock .ptable).Held
      rw [hl, Function.update_of_ne (Ne.symm hne)]
      exact hmet.2
    | _ =>
      rw [hp] at hpc
      cases hpc
  · intro a ha
    cases hp : s.pc p with
    | sleepRelease a' =>
      have hne := h.swaps p a' (by rw [hp]; rfl)
      rw [hp] at hpc
      cases hpc
      cases ha
      exact hne
    | _ =>
      rw [hp] at hpc
      cases hpc
      try cases ha

theorem lockInv_step {a : Act K} (h : LockInv s) (hs : SchedInv s) (hstep : StepCase s a s') :
    LockInv s' := by
  have hc := h.counted
  cases hstep with
  | boot hr hpc | skip _ hr hpc | pick _ hr hpc | scanEnd _ hr hpc | uvm _ hr hpc | run _ hr hpc
  | back _ hr hpc => exact h.schedMove hc hr.2 rfl (h.schedMet hr hpc)
  | sti hr hpc =>
    have hmet := h.schedMet hr hpc
    exact h.schedMove (hc.of_lock (hc.spin.sti (hmet hr.1)) rfl rfl) hr.2 rfl hmet
  | schedAcquire cpu hr hpc hcpu =>
    obtain ⟨hheld, h1⟩ := hc.acquire_first (h.schedMet hr hpc hr.1) hcpu
    exact h.schedMove (hc.acquire hcpu) hr.2 rfl ⟨hr.1, hheld, h1⟩
  | switch i hr hpc =>
    have hok := hs.ok hr hpc
    have hpark : (s.pc i).Parked := hs.parked i (by simp [hr.2]) (by rw [(hok.2 i).mpr rfl]; decide)
    have hmet := h.schedMet hr hpc
    refine ⟨hc, ?_, h.swaps⟩
    rw [Kernel.demand_process rfl, hpark.demand]
    exact hmet
  | schedRelease cpu hr hpc hcpu =>
    obtain ⟨-, -, hn, -⟩ := release_inv hc.spin hcpu
    have hmet := h.schedMet hr hpc
    refine h.schedMove (hc.release hcpu) hr.2 rfl fun _ => ?_
    show cpu.ncli = 0
    rw [hn.ncli, hmet.2.2]
    rfl
  | unlock p lk pc cpu hr hpc hcpu => exact lockInv_unlock h hr hpc hcpu
  | yieldState p _ hr hpc | sleepChan p _ hr hpc | sleepState p _ hr hpc =>
    have hmet := h.procMet hr hpc
    exact h.goto hc hr.2 rfl hmet (by rintro a ⟨⟩)
  | sched p q r cpu hr hpc hq hcpu hncli hst hif =>
    obtain ⟨hheld, hn, hl⟩ := holding_inv hc.spin hcpu
    have hncli' : cpu.ncli = s.cpu.ncli := by rw [hn.ncli, Int.add_zero]
    refine ⟨hc.of_lock hn.inv hncli' hl, ?_, swaps_update h.swaps (by rintro a ⟨⟩)⟩
    rw [Kernel.demand_sched rfl]
    show s.schedPc.demand.Met _
    rw [(hs.process p hr.2).2.1]
    refine ⟨hr.1, ?_, hncli⟩
    show (cpu.lock .ptable).Held
    rw [hl]
    exact of_decide_eq_true hheld.symm
  | switched p r intena hr hpc =>
    have hmet := h.procMet hr hpc
    refine h.goto (hc.of_lock ⟨hc.spin.nonneg, hc.spin.bound, hc.spin.off, hc.spin.locks,
      hc.spin.seen⟩ rfl rfl) hr.2 rfl ?_ ?_
    · cases r with
      | yield | sleep => exact hmet
      | exit => trivial
    · cases r <;> rintro a ⟨⟩
  | sleepClear p a hr hpc =>
    have hmet := h.procMet hr hpc
    refine h.goto hc hr.2 rfl ?_ ?_
    · split_ifs
      · exact hmet
      · trivial
    · split_ifs with hlk
      · rintro a' ⟨⟩
        exact hlk
      · rintro a' ⟨⟩
  | sleepAcquire p a cpu hr hpc hcpu =>
    exact h.goto (hc.acquire hcpu) hr.2 rfl trivial (by rintro a' ⟨⟩)
  | lockAcquire lk cpu hr hcpu =>
    exact ⟨hc.acquire hcpu, h.met.call hr rfl rfl, h.swaps⟩
  | lockRelease lk cpu hr hcpu =>
    exact ⟨hc.release hcpu, h.met.call hr rfl rfl, h.swaps⟩
  | wakeup chan cpu cpu' hr hacq hrel =>
    exact ⟨(hc.acquire hacq).release hrel, h.met.call hr rfl rfl, h.swaps⟩
  | yield p cpu hr hcpu =>
    obtain ⟨-, -, hl⟩ := acquire_inv hc.spin hcpu
    exact h.goto (hc.acquire hcpu) hr.2.1 rfl ⟨hr.1, held_of_taken hl⟩ (by rintro a ⟨⟩)
  | sleep p q chan lk cpu hr hq hlk hcpu =>
    obtain ⟨-, -, hl⟩ := acquire_inv hc.spin hcpu
    exact h.goto (hc.acquire hcpu) hr.2.1 rfl ⟨hr.1, held_of_taken hl⟩ (by rintro a ⟨⟩; exact hlk)
  | sleepPtable p q chan hr hq =>
    exact h.goto hc hr.2.1 rfl trivial (by rintro a ⟨⟩)
  | exit p q hr hncli hq =>
    exact h.goto (hc.of_lock hc.spin.cli rfl rfl) hr.2.1 rfl (fun _ => hncli) (by rintro a ⟨⟩)
  | setIF p b hr hncli =>
    have hspin : SpinInv (if b then sti s.cpu else cli s.cpu) := by
      split_ifs
      · exact hc.spin.sti hncli
      · exact hc.spin.cli
    refine ⟨hc.of_lock hspin ?_ ?_, h.met.call (Or.inr ⟨p, hr⟩) rfl rfl, h.swaps⟩
    · cases b <;> rfl
    · cases b <;> rfl
  | allocNone kstack => exact h
  | alloc kstack q hr hst proc hproc =>
    have hne := hs.creator hr (q := q) (by rw [hst]; decide)
    refine ⟨hc, ?_, swaps_update h.swaps (by rintro a ⟨⟩)⟩
    have hmet := h.met
    cases hrun : s.running with
    | none =>
      rw [Kernel.demand_sched hrun] at hmet
      rw [Kernel.demand_sched rfl]
      exact hmet.congr rfl rfl
    | some p =>
      have hpq : p ≠ q := fun he => hne (he ▸ hrun)
      rw [Kernel.demand_process hrun] at hmet
      rw [Kernel.demand_process rfl, Kernel.goto_pc_of_ne hpq]
      exact hmet.congr rfl rfl
  | allocFail | runnable => exact ⟨hc, h.met.congr rfl rfl, h.swaps⟩
  | irqEnter hirq hif =>
    have h0 := hc.zero_of_flIF hif
    refine ⟨hc.of_lock hc.spin.cli rfl rfl, ?_, h.swaps⟩
    have hmet := h.met
    show s.demand.Met _
    cases hd : s.demand <;> rw [hd] at hmet
    · rw [hmet.2.2] at h0
      cases h0
    · exact absurd hmet.2 (hc.none_held h0 _)
    · intro hoff
      cases hoff
    · trivial
  | irqExit hirq hncli =>
    refine ⟨hc.of_lock (hc.spin.sti hncli) rfl rfl, ?_, h.swaps⟩
    have hmet := h.met
    show s.demand.Met _
    cases hd : s.demand <;> rw [hd] at hmet
    · rw [hmet.1] at hirq
      cases hirq
    · rw [hmet.1] at hirq
      cases hirq
    · exact fun _ => hncli
    · trivial

theorem Boot.lockInv (h : Boot s) : LockInv s where
  counted := ⟨h.cpu.inv, by rw [h.cpu.ncli, h.cpu.heldCount]⟩
  met := by
    rw [Kernel.demand_sched h.running, h.schedPc]
    exact fun _ => h.cpu.ncli
  swaps p a ha := by
    rw [h.pc] at ha
    cases ha

/-- Both invariants hold in every reachable state. -/
theorem kernel_run {s₀ : Kernel K} {as : List (Act K)} (h₀ : Boot s₀)
    (hrun : Run KernelStep s₀ as s) : SchedInv s ∧ LockInv s :=
  hrun.state_invariant (I := fun s => SchedInv s ∧ LockInv s) ⟨h₀.schedInv, h₀.lockInv⟩
    fun _ _ _ h hstep => ⟨schedInv_step h.1 hstep.cases, lockInv_step h.2 h.1 hstep.cases⟩

end Locks

end TuixOS
