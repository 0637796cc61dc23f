import TuixOS.KernelStep

/-!
# The scheduler's state machine

The state of a process is written on three stacks: the scheduler's sets `RUNNING` and `c->proc`,
the process sets its own next state, and the scheduler clears `c->proc` behind the switch back.
`SchedInv` says what holds wherever both stand; `scheduler_states` is the result.
-/

namespace TuixOS

open Lib

/-- The local variables of `sleep`, where the process is inside it. -/
def ProcPc.args {K : Type} : ProcPc K → Option (SleepCall K)
  | .sleepUnlock a | .sleepChan a | .sleepState a | .sched (.sleep a) | .switched (.sleep a) _
  | .sleepClear a | .sleepRelease a | .sleepAcquire a => some a
  | _ => none

/-- A context that `switch_to` can resume. -/
def ProcPc.Parked {K : Type} : ProcPc K → Prop
  | .forkRet | .switched _ _ => True
  | _ => False

/-- The process has set its next state and has not switched away. -/
def ProcPc.Stretch {K : Type} : ProcPc K → Prop
  | .sched _ => True
  | _ => False

/-- No process is `RUNNING`. -/
def Idle (proc : Slot → Proc) : Prop := ∀ q, (proc q).state ≠ .running

/-- What holds while the scheduler's stack runs. -/
def SchedPc.Ok (cproc : Option Slot) (proc : Slot → Proc) : SchedPc → Prop
  | .uvm i | .run i => cproc = some i ∧ (proc i).state = .runnable ∧ Idle proc
  | .switch i => cproc = some i ∧ ∀ q, (proc q).state = .running ↔ q = i
  | .back i => cproc = some i ∧ Idle proc
  | _ => cproc = none ∧ Idle proc

structure SchedInv {K : Type} (s : Kernel K) : Prop where
  /-- `sleep` works on the process that called it. -/
  mine : ∀ q a, (s.pc q).args = some a → a.p = q
  parked : ∀ q, s.running ≠ some q → (s.proc q).state ≠ .unused → (s.pc q).Parked
  process : ∀ p, s.running = some p → s.cproc = some p ∧ s.schedPc = .back p ∧
    ∀ q, (s.proc q).state = .running ↔ q = p ∧ ¬(s.pc p).Stretch
  scheduler : s.running = none → s.schedPc.Ok s.cproc s.proc

section Invariant
variable {K : Type} {s s' : Kernel K} {p : Slot}

/-- The invariant depends on the states only through these. -/
theorem SchedInv.states (h : SchedInv s)
    (hrunning : ∀ q, (s'.proc q).state = .running ↔ (s.proc q).state = .running)
    (hrunnable : ∀ q, (s.proc q).state = .runnable → (s'.proc q).state = .runnable)
    (hunused : ∀ q, (s'.proc q).state ≠ .unused → (s.proc q).state ≠ .unused ∨ (s.pc q).Parked)
    (hcproc : s'.cproc = s.cproc) (hrun : s'.running = s.running) (hpc : s'.pc = s.pc)
    (hspc : s'.schedPc = s.schedPc) : SchedInv s' where
  mine := by
    rw [hpc]
    exact h.mine
  parked q hq hst := by
    rw [hpc]
    exact (hunused q hst).elim (h.parked q (hrun ▸ hq)) id
  process p hp := by
    obtain ⟨hc, hb, hst⟩ := h.process p (hrun ▸ hp)
    refine ⟨hcproc.trans hc, hspc.trans hb, fun q => ?_⟩
    rw [hpc, hrunning]
    exact hst q
  scheduler hs := by
    have hok := h.scheduler (hrun ▸ hs)
    have hidle : Idle s.proc → Idle s'.proc := fun hi q hq => hi q ((hrunning q).mp hq)
    rw [hspc, hcproc]
    cases hpc' : s.schedPc with
    | uvm i =>
      rw [hpc'] at hok
      exact ⟨hok.1, hrunnable i hok.2.1, hidle hok.2.2⟩
    | run i =>
      rw [hpc'] at hok
      exact ⟨hok.1, hrunnable i hok.2.1, hidle hok.2.2⟩
    | switch i =>
      rw [hpc'] at hok
      exact ⟨hok.1, fun q => (hrunning q).trans (hok.2 q)⟩
    | back i =>
      rw [hpc'] at hok
      exact ⟨hok.1, hidle hok.2⟩
    | boot | sti | acquire | scan | release =>
      rw [hpc'] at hok
      exact ⟨hok.1, hidle hok.2⟩

/-- A step that changes locks and flags only. -/
theorem SchedInv.same (h : SchedInv s) (hproc : s'.proc = s.proc) (hcproc : s'.cproc = s.cproc)
    (hrun : s'.running = s.running) (hpc : s'.pc = s.pc) (hspc : s'.schedPc = s.schedPc) :
    SchedInv s' := by
  refine h.states (fun q => ?_) (fun q hq => ?_) (fun q hq => ?_) hcproc hrun hpc hspc
  · rw [hproc]
  · rwa [hproc]
  · exact Or.inl (hproc ▸ hq)

/-- The running process goes on, with its state as it is. -/
theorem SchedInv.move (h : SchedInv s) {pc : ProcPc K} (hr : s.running = some p)
    (hproc : ∀ q, (s'.proc q).state = (s.proc q).state) (hcproc : s'.cproc = s.cproc)
    (hrun : s'.running = s.running) (hpc : s'.pc = Function.update s.pc p pc)
    (hspc : s'.schedPc = s.schedPc) (hnot : ¬(s.pc p).Stretch) (hnot' : ¬pc.Stretch)
    (hargs : ∀ a, pc.args = some a → a.p = p) : SchedInv s' where
  mine q a ha := by
    rw [hpc] at ha
    by_cases hq : q = p
    · subst hq
      rw [Function.update_self] at ha
      exact hargs a ha
    · rw [Function.update_of_ne hq] at ha
      exact h.mine q a ha
  parked q hq hst := by
    rw [hrun] at hq
    have hne : q ≠ p := fun he => hq (he ▸ hr)
    rw [hpc, Function.update_of_ne hne]
    exact h.parked q hq (hproc q ▸ hst)
  process p' hp' := by
    rw [hrun, hr] at hp'
    obtain rfl : p = p' := Option.some.inj hp'
    obtain ⟨hc, hb, hst⟩ := h.process p hr
    refine ⟨hcproc.trans hc, hspc.trans hb, fun q => ?_⟩
    rw [hproc, hst, hpc, Function.update_self]
    simp [hnot, hnot']
  scheduler hs := by
    rw [hrun, hr] at hs
    cases hs

/-- The running process sets its next state and goes to `sched`. -/
theorem SchedInv.leave (h : SchedInv s) {st : ProcState} {r : SchedCaller K}
    (hr : s.running = some p) (hnot : ¬(s.pc p).Stretch) (hst : st ≠ .running)
    (hargs : ∀ a, r = .sleep a → a.p = p) :
    SchedInv ((s.setState p st).goto p (.sched r)) where
  mine q a ha := by
    rw [Kernel.goto_pc] at ha
    by_cases hq : q = p
    · subst hq
      rw [Function.update_self] at ha
      cases r <;> cases ha
      exact hargs a rfl
    · rw [Function.update_of_ne hq] at ha
      exact h.mine q a ha
  parked q hq hst' := by
    have hne : q ≠ p := fun he => hq (he ▸ hr)
    rw [Kernel.goto_proc, Kernel.setState_state, if_neg hne] at hst'
    rw [Kernel.goto_pc_of_ne hne]
    exact h.parked q hq hst'
  process p' hp' := by
    obtain rfl : p = p' := Option.some.inj (hr.symm.trans hp')
    obtain ⟨hc, hb, hstate⟩ := h.process p hr
    refine ⟨hc, hb, fun q => ?_⟩
    rw [Kernel.goto_proc, Kernel.setState_state, Kernel.goto_pc_self]
    split_ifs with hq
    · simp [hst, ProcPc.Stretch]
    · simp [hstate, hq]
  scheduler hs := by
    rw [Kernel.goto_running, Kernel.setState_running, hr] at hs
    cases hs

/-- A step of the scheduler that moves no stack. -/
theorem SchedInv.schedMove (h : SchedInv s) (hr : s.running = none)
    (hunused : ∀ q, (s'.proc q).state ≠ .unused → (s.proc q).state ≠ .unused)
    (hrun : s'.running = s.running) (hpc : s'.pc = s.pc)
    (hok : s'.schedPc.Ok s'.cproc s'.proc) : SchedInv s' where
  mine := by
    rw [hpc]
    exact h.mine
  parked q hq hst := by
    rw [hpc]
    exact h.parked q (hrun ▸ hq) (hunused q hst)
  process p hp := by
    rw [hrun, hr] at hp
    cases hp
  scheduler _ := hok

/-- A stack that does not run is set to start in `fork_ret`. -/
theorem SchedInv.fork (h : SchedInv s) {q : Slot} (hne : s.running ≠ some q) :
    SchedInv (s.goto q .forkRet) where
  mine q' a ha := by
    rw [Kernel.goto_pc] at ha
    by_cases hq : q' = q
    · subst hq
      rw [Function.update_self] at ha
      cases ha
    · rw [Function.update_of_ne hq] at ha
      exact h.mine q' a ha
  parked q' hq' hst := by
    rw [Kernel.goto_pc]
    by_cases hq : q' = q
    · subst hq
      rw [Function.update_self]
      trivial
    · rw [Function.update_of_ne hq]
      exact h.parked q' hq' hst
  process p hp := by
    have hpq : p ≠ q := by
      rintro rfl
      exact hne hp
    rw [Kernel.goto_pc_of_ne hpq]
    exact h.process p hp
  scheduler := h.scheduler

/-- The code of a process runs outside the stretch. -/
theorem SchedInv.own_running (h : SchedInv s) (hr : s.InOwn p) : (s.proc p).state = .running := by
  obtain ⟨-, -, hst⟩ := h.process p hr.2.1
  rw [hst, hr.2.2]
  exact ⟨rfl, fun hs => hs⟩

/-- No process is made out of the running one. -/
theorem SchedInv.creator (h : SchedInv s) (hr : s.AtBoot ∨ ∃ p, s.InOwn p) {q : Slot}
    (hst : (s.proc q).state ≠ .running) : s.running ≠ some q := by
  intro hq
  rcases hr with hboot | ⟨p, hown⟩
  · rw [hboot.2.1] at hq
    cases hq
  · obtain rfl : p = q := Option.some.inj (hown.2.1.symm.trans hq)
    exact hst (h.own_running hown)

theorem SchedInv.ok (h : SchedInv s) {pc : SchedPc} (hr : s.Runs none) (hpc : s.schedPc = pc) :
    pc.Ok s.cproc s.proc :=
  hpc ▸ h.scheduler hr.2

theorem SchedInv.self (h : SchedInv s) {q : Slot} (hr : s.running = some p) (hq : s.cproc = some q) :
    p = q :=
  Option.some.inj ((h.process p hr).1.symm.trans hq)

/-- `sched` has switched to the scheduler. -/
theorem SchedInv.switched (h : SchedInv s) {r : SchedCaller K} {b : Bool} (hr : s.running = some p)
    (hpc : s.pc p = .sched r) (hproc : s'.proc = s.proc) (hcproc : s'.cproc = s.cproc)
    (hrun : s'.running = none) (hpc' : s'.pc = Function.update s.pc p (.switched r b))
    (hspc : s'.schedPc = s.schedPc) : SchedInv s' where
  mine q a ha := by
    rw [hpc'] at ha
    by_cases hq : q = p
    · subst hq
      rw [Function.update_self] at ha
      apply h.mine q a
      rw [hpc]
      cases r <;> exact ha
    · rw [Function.update_of_ne hq] at ha
      exact h.mine q a ha
  parked q _ hst := by
    rw [hpc']
    by_cases hq : q = p
    · subst hq
      rw [Function.update_self]
      trivial
    · rw [Function.update_of_ne hq]
      refine h.parked q ?_ (hproc ▸ hst)
      rw [hr]
      exact fun he => hq (Option.some.inj he).symm
  process p' hp' := by
    rw [hrun] at hp'
    cases hp'
  scheduler _ := by
    obtain ⟨hc, hb, hst⟩ := h.process p hr
    rw [hspc, hb, hcproc, hproc]
    refine ⟨hc, fun q hq => ?_⟩
    have hnot := ((hst q).mp hq).2
    rw [hpc] at hnot
    exact hnot trivial

theorem ProcPc.unlocks_spec {pc pc' : ProcPc K} {lk : LockId K} (h : pc.unlocks = some (lk, pc')) :
    ¬pc.Stretch ∧ ¬pc'.Stretch ∧ ∀ a, pc'.args = some a → pc.args = some a := by
  cases pc <;> simp only [ProcPc.unlocks, Option.some.injEq, Prod.mk.injEq, reduceCtorEq] at h <;>
    obtain ⟨-, rfl⟩ := h <;> exact ⟨id, id, fun _ ha => ha⟩

theorem SchedCaller.next_spec (r : SchedCaller K) (b : Bool) :
    ¬r.next.Stretch ∧ ∀ a, r.next.args = some a → (ProcPc.switched r b).args = some a := by
  cases r <;> exact ⟨id, fun _ ha => ha⟩

theorem wokenProc_state (chan : Word) (proc : Slot → Proc) (q : Slot) :
    (wokenProc chan proc q).state = (proc q).state ∨
      (proc q).state = .sleeping ∧ (proc q).chan = chan ∧
        (wokenProc chan proc q).state = .runnable := by
  unfold wokenProc
  split_ifs with hw
  · exact Or.inr ⟨hw.1, hw.2, rfl⟩
  · exact Or.inl rfl

variable [DecidableEq K]

theorem schedInv_step {a : Act K} (h : SchedInv s) (hstep : StepCase s a s') : SchedInv s' := by
  cases hstep with
  | sti hr hpc | schedAcquire _ hr hpc | skip _ hr hpc | scanEnd _ hr hpc | uvm _ hr hpc
  | schedRelease _ hr hpc =>
    have hok := h.ok hr hpc
    exact h.schedMove hr.2 (fun _ hq => hq) rfl rfl hok
  | boot hr hpc =>
    have hok := h.ok hr hpc
    exact h.schedMove hr.2 (fun _ hq => hq) rfl rfl ⟨rfl, hok.2⟩
  | pick i hr hpc hst =>
    have hok := h.ok hr hpc
    exact h.schedMove hr.2 (fun _ hq => hq) rfl rfl ⟨rfl, hst, hok.2⟩
  | run i hr hpc =>
    have hok := h.ok hr hpc
    refine h.schedMove hr.2 (fun q hq => ?_) rfl rfl ⟨hok.1, fun q => ?_⟩
    · by_cases hqi : q = i
      · subst hqi
        rw [hok.2.1]
        decide
      · rwa [Kernel.schedGoto_proc, Kernel.setState_state, if_neg hqi] at hq
    · rw [Kernel.schedGoto_proc, Kernel.setState_state]
      split_ifs with hqi
      · simp [hqi]
      · simp [hqi, hok.2.2 q]
  | switch i hr hpc =>
    have hok := h.ok hr hpc
    have hstate : (s.proc i).state = .running := (hok.2 i).mpr rfl
    have hpark : (s.pc i).Parked := h.parked i (by rw [hr.2]; simp) (by rw [hstate]; decide)
    have hnot : ¬(s.pc i).Stretch := by
      cases hi : s.pc i <;> rw [hi] at hpark <;> simp_all [ProcPc.Parked, ProcPc.Stretch]
    refine ⟨h.mine, fun q _ hst => h.parked q (by rw [hr.2]; simp) hst, fun p hp => ?_, ?_⟩
    · obtain rfl : i = p := Option.some.inj hp
      refine ⟨hok.1, rfl, fun q => ?_⟩
      rw [hok.2]
      exact (and_iff_left hnot).symm
    · intro hn
      cases hn
  | back i hr hpc =>
    have hok := h.ok hr hpc
    exact h.schedMove hr.2 (fun _ hq => hq) rfl rfl ⟨rfl, hok.2⟩
  | unlock p lk pc cpu hr hpc hcpu =>
    obtain ⟨hnot, hnot', hargs⟩ := ProcPc.unlocks_spec hpc
    exact h.move hr.2 (fun _ => rfl) rfl rfl rfl rfl hnot hnot' fun a ha => h.mine p a (hargs a ha)
  | yieldState p q hr hpc hq =>
    obtain rfl := h.self hr.2 hq
    exact h.leave hr.2 (by rw [hpc]; exact id) (by decide) (by simp)
  | sleepChan p a hr hpc =>
    have hmine := h.mine p a (by rw [hpc]; rfl)
    refine h.move hr.2 (fun q => ?_) rfl rfl rfl rfl (by rw [hpc]; exact id) id ?_
    · simp
    · rintro a' ⟨⟩
      exact hmine
  | sleepState p a hr hpc =>
    obtain rfl := h.mine p a (by rw [hpc]; rfl)
    exact h.leave hr.2 (by rw [hpc]; exact id) (by decide) (by rintro a' ⟨⟩; rfl)
  | sched p q r cpu hr hpc hq hcpu hncli hst hif =>
    obtain rfl := h.self hr.2 hq
    exact h.switched hr.2 hpc rfl rfl rfl rfl rfl
  | switched p r intena hr hpc =>
    obtain ⟨hnot, hargs⟩ := r.next_spec intena
    exact h.move hr.2 (fun _ => rfl) rfl rfl rfl rfl (by rw [hpc]; exact id) hnot fun a ha =>
      h.mine p a (hpc ▸ hargs a ha)
  | sleepClear p a hr hpc =>
    have hmine := h.mine p a (by rw [hpc]; rfl)
    refine h.move hr.2 (fun q => ?_) rfl rfl rfl rfl (by rw [hpc]; exact id) ?_ ?_
    · simp
    · split_ifs <;> exact id
    · split_ifs
      · rintro a' ⟨⟩
        exact hmine
      · rintro a' ⟨⟩
  | sleepAcquire p a cpu hr hpc hcpu =>
    exact h.move hr.2 (fun _ => rfl) rfl rfl rfl rfl (by rw [hpc]; exact id) id (by rintro a' ⟨⟩)
  | wakeup chan cpu cpu' hr hacq hrel =>
    refine h.states (fun q => ?_) (fun q hq => ?_) (fun q hq => ?_) rfl rfl rfl rfl
    · rcases wokenProc_state chan s.proc q with hsame | ⟨hsl, -, hrn⟩
      · exact hsame ▸ Iff.rfl
      · simp [hsl, hrn]
    · rcases wokenProc_state chan s.proc q with hsame | ⟨-, -, hrn⟩
      · exact hsame.trans hq
      · exact hrn
    · rcases wokenProc_state chan s.proc q with hsame | ⟨hsl, -, -⟩
      · exact Or.inl (hsame ▸ hq)
      · exact Or.inl (by rw [hsl]; decide)
  | yield p cpu hr hcpu =>
    exact h.move hr.2.1 (fun _ => rfl) rfl rfl rfl rfl (by rw [hr.2.2]; exact id) id
      (by rintro a' ⟨⟩)
  | sleep p q chan lk cpu hr hq hlk hcpu =>
    obtain rfl := h.self hr.2.1 hq
    exact h.move hr.2.1 (fun _ => rfl) rfl rfl rfl rfl (by rw [hr.2.2]; exact id) id
      (by rintro a' ⟨⟩; rfl)
  | sleepPtable p q chan hr hq =>
    obtain rfl := h.self hr.2.1 hq
    exact h.move hr.2.1 (fun _ => rfl) rfl rfl rfl rfl (by rw [hr.2.2]; exact id) id
      (by rintro a' ⟨⟩; rfl)
  | exit p q hr hncli hq =>
    obtain rfl := h.self hr.2.1 hq
    have hsame : SchedInv (s.setCpu (cli s.cpu)) := h.same rfl rfl rfl rfl rfl
    exact hsame.leave hr.2.1 (by rw [Kernel.setCpu_pc, hr.2.2]; exact id) (by decide) (by simp)
  | allocNone kstack => exact h
  | allocFail q hst proc hproc =>
    have hstate : ∀ q', (Function.update s.proc q proc q').state = (s.proc q').state := by
      intro q'
      by_cases hq : q' = q
      · subst hq
        rw [Function.update_self, hproc, hst]
      · rw [Function.update_of_ne hq]
    exact h.states (fun q' => by rw [hstate]) (fun q' hq => (hstate q').trans hq)
      (fun q' hq => Or.inl (hstate q' ▸ hq)) rfl rfl rfl rfl
  | alloc kstack q hr hst proc hproc =>
    have hfork := h.fork (h.creator hr (q := q) (by rw [hst]; decide))
    refine hfork.states (fun q' => ?_) (fun q' hq' => ?_) (fun q' hq' => ?_) rfl rfl rfl rfl
    all_goals
      by_cases hq : q' = q
      · subst hq
        simp_all [ProcPc.Parked]
      · simp_all
  | runnable q pgdir hr hst proc hproc =>
    refine h.states (fun q' => ?_) (fun q' hq' => ?_) (fun q' hq' => ?_) rfl rfl rfl rfl
    all_goals
      by_cases hq : q' = q
      · subst hq
        simp_all
      · simp_all
  | lockAcquire | lockRelease | setIF | irqEnter | irqExit => exact h.same rfl rfl rfl rfl rfl

omit [DecidableEq K] in
theorem Boot.schedInv (h : Boot s) : SchedInv s where
  mine q a ha := by
    rw [h.pc] at ha
    cases ha
  parked q _ hst := absurd (h.unused q) hst
  process p hp := by
    rw [h.running] at hp
    cases hp
  scheduler _ := by
    rw [h.schedPc]
    exact ⟨h.cproc, fun q => by rw [h.unused q]; decide⟩

theorem schedInv_run {s₀ : Kernel K} {as : List (Act K)} (h₀ : Boot s₀)
    (hrun : Run KernelStep s₀ as s) : SchedInv s :=
  hrun.state_invariant h₀.schedInv fun _ _ _ h hstep => schedInv_step h hstep.cases

/-! ## What a step does to the states -/

/-- The writes of a state: the step, the slot, its state before and after. -/
inductive StateWrite (s : Kernel K) : Act K → Slot → ProcState → ProcState → Prop
  | dispatch (q : Slot) (hr : s.Runs none) (hpc : s.schedPc = .run q) :
    StateWrite s .go q .runnable .running
  | yield (q : Slot) (hr : s.Runs (some q)) (hpc : s.pc q = .yieldState) :
    StateWrite s .go q .running .runnable
  | sleep (q : Slot) (a : SleepCall K) (hr : s.Runs (some q)) (hpc : s.pc q = .sleepState a) :
    StateWrite s .go q .running .sleeping
  | exit (q : Slot) (hr : s.InOwn q) : StateWrite s (.own q .exit) q .running .zombie
  | wakeup (q : Slot) : StateWrite s (.lock (.wakeup (s.proc q).chan)) q .sleeping .runnable
  | alloc (q : Slot) (kstack : Word) : StateWrite s (.alloc kstack) q .unused .embryo
  | runnable (q : Slot) (pgdir : Word) : StateWrite s (.runnable q pgdir) q .embryo .runnable

theorem state_change {a : Act K} (h : SchedInv s) (hstep : StepCase s a s') {q : Slot}
    (hne : (s'.proc q).state ≠ (s.proc q).state) :
    StateWrite s a q (s.proc q).state (s'.proc q).state := by
  -- a write to the slot `i` changes the state of no other slot
  have hset : ∀ i st, ((s.setState i st).proc q).state ≠ (s.proc q).state → q = i := by
    intro i st hne
    by_contra hi
    rw [Kernel.setState_state, if_neg hi] at hne
    exact hne rfl
  have hupdate : ∀ i proc, (Function.update s.proc i proc q).state ≠ (s.proc q).state → q = i := by
    intro i proc hne
    by_contra hi
    rw [Function.update_of_ne hi] at hne
    exact hne rfl
  cases hstep with
  | run i hr hpc =>
    obtain rfl := hset i .running hne
    rw [(h.ok hr hpc).2.1, Kernel.schedGoto_proc, Kernel.setState_state, if_pos rfl]
    exact .dispatch q hr hpc
  | yieldState p r hr hpc hc =>
    obtain rfl := h.self hr.2 hc
    obtain rfl := hset p .runnable hne
    rw [((h.process q hr.2).2.2 q).mpr ⟨rfl, by rw [hpc]; exact id⟩, Kernel.goto_proc,
      Kernel.setState_state, if_pos rfl]
    exact .yield q hr hpc
  | sleepState p a hr hpc =>
    obtain rfl := h.mine p a (by rw [hpc]; rfl)
    obtain rfl := hset a.p .sleeping hne
    rw [((h.process a.p hr.2).2.2 a.p).mpr ⟨rfl, by rw [hpc]; exact id⟩, Kernel.goto_proc,
      Kernel.setState_state, if_pos rfl]
    exact .sleep a.p a hr hpc
  | sleepChan p a hr hpc => exact absurd (by simp) hne
  | sleepClear p a hr hpc => exact absurd (by simp) hne
  | exit p r hr hncli hc =>
    obtain rfl := h.self hr.2.1 hc
    obtain rfl := hset p .zombie hne
    rw [h.own_running hr, Kernel.goto_proc, Kernel.setState_state, if_pos rfl]
    exact .exit q hr
  | wakeup chan cpu cpu' hr hacq hrel =>
    rcases wokenProc_state chan s.proc q with hsame | ⟨hsl, rfl, hrn⟩
    · exact absurd hsame hne
    · rw [hsl, hrn]
      exact .wakeup q
  | allocFail i hst proc hproc =>
    obtain rfl := hupdate i proc hne
    exact absurd (by simp only [Function.update_self, hproc, hst]) hne
  | alloc kstack i hr hst proc hproc =>
    obtain rfl := hupdate i proc hne
    simp only [hst, Kernel.goto_proc, Function.update_self, hproc]
    exact .alloc q kstack
  | runnable i pgdir hr hst proc hproc =>
    obtain rfl := hupdate i proc hne
    simp only [hst, Function.update_self, hproc]
    exact .runnable q pgdir
  | _ => exact absurd rfl hne

/-- Only `wakeup` on its channel ends the sleep of a process. -/
theorem sleep_ends {a : Act K} (h : SchedInv s) (hstep : StepCase s a s') {q : Slot}
    (hq : (s.proc q).state = .sleeping) (hq' : (s'.proc q).state ≠ .sleeping) :
    a = .lock (.wakeup (s.proc q).chan) := by
  have hwrite := state_change h hstep (hq ▸ hq')
  rw [hq] at hwrite
  generalize (s'.proc q).state = st at hwrite
  cases hwrite with
  | wakeup => rfl

/-- Only the scheduler, when it dispatches it, ends that a process is `RUNNABLE`. -/
theorem runnable_ends {a : Act K} (h : SchedInv s) (hstep : StepCase s a s') {q : Slot}
    (hq : (s.proc q).state = .runnable) (hq' : (s'.proc q).state ≠ .runnable) :
    a = .go ∧ s.Runs none ∧ s.schedPc = .run q := by
  have hwrite := state_change h hstep (hq ▸ hq')
  rw [hq] at hwrite
  generalize (s'.proc q).state = st at hwrite
  cases hwrite with
  | dispatch _ hr hpc => exact ⟨rfl, hr, hpc⟩

/-- `switch_to` runs only behind `p->state = RUNNING` on the same slot. -/
theorem dispatch_cases {a : Act K} (hstep : StepCase s a s') (hr : s.running = none) (i : Slot) :
    (s'.running = some i → s.schedPc = .switch i) ∧
      (s'.schedPc = .switch i → s.schedPc = .switch i ∨ s.schedPc = .run i) := by
  have hrun : s.running ≠ some i := by simp [hr]
  cases hstep with
  | switch j hr' hpc =>
    constructor
    · rintro ⟨⟩
      exact hpc
    · rintro ⟨⟩
  | run j hr' hpc =>
    constructor
    · exact fun h => absurd h hrun
    · rintro ⟨⟩
      exact Or.inr hpc
  | boot | sti | schedAcquire | skip | pick | scanEnd | uvm | back | schedRelease =>
    constructor
    · exact fun h => absurd h hrun
    · rintro ⟨⟩
  | sched p q r cpu hr' =>
    rw [hr'.2] at hr
    cases hr
  | _ => exact ⟨fun h => absurd h hrun, Or.inl⟩

/-- Where the scheduler scans the table, outside a dispatch. -/
def SchedPc.Scanning : SchedPc → Prop
  | .sti | .acquire | .scan _ | .release => True
  | _ => False

theorem SchedPc.Scanning.idle {pc : SchedPc} {cproc : Option Slot} {proc : Slot → Proc}
    (h : pc.Scanning) (hok : pc.Ok cproc proc) : cproc = none ∧ Idle proc := by
  cases pc with
  | sti | acquire | scan | release => exact hok
  | boot | uvm | run | switch | back => exact absurd h id

/-- **The states of the processes.** In every reachable state of the kernel: the process whose stack
runs is `c->proc`, and the only one `RUNNING` except between setting its next state and switching
away, when none is; while the scheduler scans, `c->proc` is 0 and none is `RUNNING`; only `wakeup`
on its channel ends a sleep; and the slot switched to was `RUNNABLE` when the scheduler set it
`RUNNING`. -/
theorem scheduler_states {s₀ : Kernel K} {as : List (Act K)} (h₀ : Boot s₀)
    (hrun : Run KernelStep s₀ as s) :
    (∀ p, s.running = some p → s.cproc = some p ∧
      (¬(s.pc p).Stretch → ∀ q, (s.proc q).state = .running ↔ q = p) ∧
      ((s.pc p).Stretch → Idle s.proc)) ∧
    (s.running = none → s.schedPc.Scanning → s.cproc = none ∧ Idle s.proc) ∧
    (∀ a s' q, KernelStep s a s' → (s.proc q).state = .sleeping →
      (s'.proc q).state ≠ .sleeping → a = .lock (.wakeup (s.proc q).chan)) ∧
    (∀ i, s.running = none → s.schedPc = .run i → (s.proc i).state = .runnable) ∧
    (∀ a s' i, KernelStep s a s' → s.running = none →
      (s'.running = some i → s.schedPc = .switch i) ∧
      (s'.schedPc = .switch i → s.schedPc = .switch i ∨ s.schedPc = .run i)) := by
  have h := schedInv_run h₀ hrun
  refine ⟨fun p hp => ?_, fun hr hscan => hscan.idle (h.scheduler hr),
    fun a s' q hstep hq hq' => sleep_ends h hstep.cases hq hq', fun i hr hpc => ?_,
    fun a s' i hstep hr => dispatch_cases hstep.cases hr i⟩
  · obtain ⟨hc, -, hst⟩ := h.process p hp
    refine ⟨hc, fun hnot q => ?_, fun hstr q hq => ((hst q).mp hq).2 hstr⟩
    rw [hst]
    exact and_iff_left hnot
  · have hok := h.scheduler hr
    rw [hpc] at hok
    exact hok.2.1

end Invariant

theorem scheduler_states_first : ∃ s : Kernel Unit, Run KernelStep bootKernel firstProcess s ∧
    s.running = some 0 ∧ s.cproc = some 0 := by
  have hrun : (runActs firstProcess (bootKernel : Kernel Unit)).map (·.running) = some (some 0) := by
    decide +kernel
  obtain ⟨s, hs, hr⟩ := Option.map_eq_some_iff.mp hrun
  have hrun' := run_of_runActs hs
  exact ⟨s, hrun', hr, ((scheduler_states boot_bootKernel hrun').1 0 hr).1⟩

end TuixOS
