import TuixOS.Wakeup

/-!
# Sleep locks: `kernel/sys/sleeplock.c`

Processes call `acquire_sleep` and `release_sleep` of one lock over the kernel machine, with all the
other code of the kernel in between. Behind the inner lock's `acquire` a process is alone until it
sleeps or releases it (`SleepInv.inside`), so at most one gets past the loop.

`release_sleep` has no statements, and `c_cpu()->pid` is assigned nowhere: as soon as one
`acquire_sleep` has returned, the recorded owner is wrong, and the lock stays taken.
`sleeplock_owned_iff` is the result.
-/

namespace TuixOS

open Lib

/-- Where a process stands with the lock: at the statement of `acquire_sleep` to run next. -/
inductive SleepPc
  | out
  /-- `while(lk->locked)` -/
  | test
  /-- In its `sleep(lk, &lk->lk)`. -/
  | asleep
  /-- `lk->locked = 1` -/
  | setLocked
  /-- `lk->pid = c_cpu()->pid` -/
  | setPid
  /-- `release(&lk->lk)` -/
  | leave
  /-- Between its `acquire_sleep` and its `release_sleep`. -/
  | between
  deriving DecidableEq

/-- `struct sleeplock` beside the kernel; its inner lock is one of the kernel's. -/
structure SleepLock (K : Type) where
  kernel : Kernel K
  locked : Word
  pid : Int
  /-- `cpus[0].pid` -/
  cpuPid : Int
  place : Slot → SleepPc

def SleepLock.goto {K : Type} (s : SleepLock K) (p : Slot) (pc : SleepPc) : SleepLock K :=
  { s with place := Function.update s.place p pc }

theorem SleepLock.goto_self {K : Type} (s : SleepLock K) (p : Slot) (pc : SleepPc) :
    (s.goto p pc).place p = pc :=
  Function.update_self ..

theorem SleepLock.goto_of_ne {K : Type} {s : SleepLock K} {p q : Slot} {pc : SleepPc} (h : q ≠ p) :
    (s.goto p pc).place q = s.place q :=
  Function.update_of_ne h ..

/-- `release_sleep` -/
def releaseSleep {K : Type} (s : SleepLock K) : SleepLock K := s

inductive SleepAct (K : Type)
  /-- Any other code, of these processes too. -/
  | kernel (a : Act K)
  | acquire (p : Slot)
  | test (p : Slot)
  | setLocked (p : Slot)
  | setPid (p : Slot)
  | leave (p : Slot)
  | release (p : Slot)
  deriving DecidableEq

/-- With the inner lock held. -/
def SleepPc.Inside : SleepPc → Prop
  | .test | .setLocked | .setPid | .leave => True
  | .out | .asleep | .between => False

instance : ∀ pc : SleepPc, Decidable pc.Inside
  | .test | .setLocked | .setPid | .leave => inferInstanceAs (Decidable True)
  | .out | .asleep | .between => inferInstanceAs (Decidable False)

section Machine
variable {K : Type} [DecidableEq K]

/-- Other code takes or releases the inner lock. -/
def Act.Uses (lk : LockId K) : Act K → Prop
  | .lock (.acquire lk') | .lock (.release lk') => lk' = lk
  | .own _ (.sleep _ lk') => lk' = some lk
  | _ => False

instance (lk : LockId K) : ∀ a : Act K, Decidable (a.Uses lk)
  | .lock (.acquire lk') | .lock (.release lk') => inferInstanceAs (Decidable (lk' = lk))
  | .own _ (.sleep _ lk') => inferInstanceAs (Decidable (lk' = some lk))
  | .go | .lock (.wakeup _) | .own _ .yield | .own _ .exit | .own _ (.setIF _) | .alloc _
  | .runnable _ _ | .irqEnter | .irqExit => inferInstanceAs (Decidable False)

variable (k : K) (chan : Word)

/-- Only these functions use the inner lock, and a process inside them does nothing else; a handler
may come at any time. `release_sleep` is called by the holder. -/
def SleepAct.Enabled (s : SleepLock K) : SleepAct K → Prop
  | .kernel a => a.Enabled s.kernel ∧ ¬a.Uses (.other k) ∧
    ∀ p, s.kernel.InOwn p → (s.place p).Inside → a = .irqEnter
  | .acquire p => s.kernel.InOwn p ∧ s.place p = .out
  | .test p => s.kernel.InOwn p ∧ s.place p = .test
  | .setLocked p => s.kernel.InOwn p ∧ s.place p = .setLocked
  | .setPid p => s.kernel.InOwn p ∧ s.place p = .setPid
  | .leave p => s.kernel.InOwn p ∧ s.place p = .leave
  | .release p => s.kernel.InOwn p ∧ s.place p = .between

instance (s : SleepLock K) : ∀ a : SleepAct K, Decidable (a.Enabled k s)
  | .kernel a => inferInstanceAs (Decidable (a.Enabled s.kernel ∧ ¬a.Uses (.other k) ∧
    ∀ p, s.kernel.InOwn p → (s.place p).Inside → a = .irqEnter))
  | .acquire p => inferInstanceAs (Decidable (s.kernel.InOwn p ∧ s.place p = .out))
  | .test p => inferInstanceAs (Decidable (s.kernel.InOwn p ∧ s.place p = .test))
  | .setLocked p => inferInstanceAs (Decidable (s.kernel.InOwn p ∧ s.place p = .setLocked))
  | .setPid p => inferInstanceAs (Decidable (s.kernel.InOwn p ∧ s.place p = .setPid))
  | .leave p => inferInstanceAs (Decidable (s.kernel.InOwn p ∧ s.place p = .leave))
  | .release p => inferInstanceAs (Decidable (s.kernel.InOwn p ∧ s.place p = .between))

/-- `chan` is the address of the lock. A `sleep` that returns goes back to the test. -/
def SleepAct.exec (s : SleepLock K) : SleepAct K → Res (SleepLock K)
  | .kernel a => do
    let kernel ← a.exec s.kernel
    return { s with
      kernel := kernel
      place := fun p =>
        if s.place p = .asleep ∧ s.kernel.Returned kernel p then .test else s.place p }
  | .acquire p => do
    let kernel ← Act.exec (.lock (.acquire (.other k))) s.kernel
    return { s with kernel := kernel }.goto p .test
  | .test p =>
    if s.locked ≠ 0 then do
      let kernel ← Act.exec (.own p (.sleep chan (some (.other k)))) s.kernel
      return { s with kernel := kernel }.goto p .asleep
    else .ok (s.goto p .setLocked)
  | .setLocked p => .ok ({ s with locked := 1 }.goto p .setPid)
  | .setPid p => .ok ({ s with pid := s.cpuPid }.goto p .leave)
  | .leave p => do
    let kernel ← Act.exec (.lock (.release (.other k))) s.kernel
    return { s with kernel := kernel }.goto p .between
  | .release p => .ok ((releaseSleep s).goto p .out)

def SleepStep (s : SleepLock K) (a : SleepAct K) (s' : SleepLock K) : Prop :=
  a.Enabled k s ∧ a.exec k chan s = .ok s'

end Machine

/-- The kernel when it boots, and the lock behind `init_sleeplock`. -/
structure SleepBoot {K : Type} (s : SleepLock K) : Prop where
  kernel : Boot s.kernel
  nextPid : s.kernel.nextPid = 1
  locked : s.locked = 0
  pid : s.pid = 0
  cpuPid : s.cpuPid = 0
  place : ∀ p, s.place p = .out

/-! ## The properties -/

/-- At most one process is between its `acquire_sleep` and its `release_sleep`. -/
def SleepLock.AtMostOne {K : Type} (s : SleepLock K) : Prop :=
  ∀ p q, s.place p = .between → s.place q = .between → p = q

/-- Where the inner lock is free, the lock is taken exactly by the process it names. -/
def SleepLock.Owned {K : Type} (k : K) (s : SleepLock K) : Prop :=
  (s.kernel.cpu.lock (.other k)).Free →
    (s.locked = 1 ↔ ∃ p, s.place p = .between) ∧
    ∀ p, s.place p = .between → s.pid = (s.kernel.proc p).pid

/-- No process sleeps on the lock. -/
def SleepLock.NoneAsleep {K : Type} (s : SleepLock K) : Prop :=
  ∀ p, s.place p = .asleep → (s.kernel.proc p).state ≠ .sleeping

/-- What a sleep lock is for: the owner is right in every state of the run `as` from `s₀`, and a
`release_sleep` leaves no process asleep. -/
def SleepLock.Correct {K : Type} [DecidableEq K] (k : K) (chan : Word) (s₀ : SleepLock K)
    (as : List (SleepAct K)) : Prop :=
  (∀ bs cs t, as = bs ++ cs → Run (SleepStep k chan) s₀ bs t → t.AtMostOne ∧ t.Owned k) ∧
  ∀ bs p cs t, as = bs ++ .release p :: cs →
    Run (SleepStep k chan) s₀ (bs ++ [.release p]) t → t.NoneAsleep

/-! ## The numbers of the processes -/

/-- Every process in use has a positive number. -/
structure Numbered {K : Type} (s : Kernel K) : Prop where
  next : 1 ≤ s.nextPid
  pid : ∀ q, (s.proc q).state ≠ .unused → 1 ≤ (s.proc q).pid

section Invariant
variable {K : Type} [DecidableEq K] {s s' : Kernel K} {p : Slot} {chan : Word} {k : K}

/-- Only `config_proc_kstack` numbers a process. -/
theorem pid_kept {a : Act K} (hstep : StepCase s a s') (halloc : ∀ kstack, a ≠ .alloc kstack)
    (hrun : ∀ q pgdir, a ≠ .runnable q pgdir) :
    s'.nextPid = s.nextPid ∧ ∀ q, (s'.proc q).pid = (s.proc q).pid := by
  have hset : ∀ i st q, ((s.setState i st).proc q).pid = (s.proc q).pid := by
    intro i st q
    by_cases hq : q = i
    · subst hq
      simp [Kernel.setState]
    · simp [Kernel.setState, hq]
  have hchan : ∀ i ch q, ((s.setChan i ch).proc q).pid = (s.proc q).pid := by
    intro i ch q
    by_cases hq : q = i
    · subst hq
      simp [Kernel.setChan]
    · simp [Kernel.setChan, hq]
  cases hstep with
  | run | yieldState | sleepState | exit => exact ⟨rfl, hset _ _⟩
  | sleepChan | sleepClear => exact ⟨rfl, hchan _ _⟩
  | wakeup ch =>
    refine ⟨rfl, fun q => ?_⟩
    simp only [wokenProc]
    split_ifs <;> rfl
  | allocFail => exact absurd rfl (halloc _)
  | alloc => exact absurd rfl (halloc _)
  | runnable => exact absurd rfl (hrun _ _)
  | _ => exact ⟨rfl, fun _ => rfl⟩

/-- Only `alloc_process` takes an unused slot. -/
theorem used_before {a : Act K} (hinv : SchedInv s) (hstep : StepCase s a s')
    (halloc : ∀ kstack, a ≠ .alloc kstack) {q : Slot} (hq : (s'.proc q).state ≠ .unused) :
    (s.proc q).state ≠ .unused := by
  intro hun
  have hwrite := state_change hinv hstep (hun ▸ hq)
  rw [hun] at hwrite
  generalize (s'.proc q).state = st at hwrite
  cases hwrite with
  | alloc _ kstack => exact halloc kstack rfl

omit [DecidableEq K] in
theorem numbered_alloc {kstack : Word} {r : Option Slot × Kernel K} (h : Numbered s)
    (hrun : allocProcess kstack s = .ok r) : Numbered r.2 := by
  have hnext := h.next
  unfold allocProcess at hrun
  cases hfind : (List.finRange maxProc).find? fun i => (s.proc i).state = .unused with
  | none =>
    rw [hfind] at hrun
    cases hrun
    exact h
  | some q =>
    rw [hfind] at hrun
    simp only [configProcKstack] at hrun
    split_ifs at hrun with hmax hk
    · cases hrun
      refine ⟨show 1 ≤ s.nextPid + 1 by omega, fun q' hq' => ?_⟩
      by_cases hqq : q' = q
      · subst hqq
        simp [Kernel.setState] at hq'
      · simp only [Kernel.setState, Function.update_of_ne hqq] at hq' ⊢
        exact h.pid q' hq'
    · cases hrun
      refine ⟨show 1 ≤ s.nextPid + 1 by omega, fun q' hq' => ?_⟩
      by_cases hqq : q' = q
      · subst hqq
        simpa using hnext
      · simp only [Kernel.goto_proc, Function.update_of_ne hqq] at hq' ⊢
        exact h.pid q' hq'

omit [DecidableEq K] in
theorem numbered_runnable {q : Slot} {pgdir : Word} (h : Numbered s)
    (hst : (s.proc q).state = .embryo) (hrun : makeRunnable q pgdir s = .ok s') : Numbered s' := by
  simp only [makeRunnable] at hrun
  split_ifs at hrun with hpg
  cases hrun
  refine ⟨h.next, fun q' hq' => ?_⟩
  by_cases hqq : q' = q
  · subst hqq
    simpa [Kernel.setState] using h.pid q' (by rw [hst]; decide)
  · simp only [Kernel.setState, Function.update_of_ne hqq] at hq' ⊢
    exact h.pid q' hq'

theorem numbered_step {a : Act K} (hinv : SchedInv s) (h : Numbered s) (hstep : KernelStep s a s') :
    Numbered s' := by
  have hother : (∀ kstack, a ≠ .alloc kstack) → (∀ q pgdir, a ≠ .runnable q pgdir) →
      Numbered s' := by
    intro halloc hrun
    obtain ⟨hnext, hpid⟩ := pid_kept hstep.cases halloc hrun
    refine ⟨hnext ▸ h.next, fun q hq => ?_⟩
    rw [hpid]
    exact h.pid q (used_before hinv hstep.cases halloc hq)
  cases a with
  | alloc kstack =>
    obtain ⟨r, hr, hexec⟩ := bind_eq_ok.mp hstep.2
    cases hexec
    exact numbered_alloc h hr
  | runnable q pgdir => exact numbered_runnable h hstep.1.2 hstep.2
  | _ => exact hother (by simp) (by simp)

/-! ## Who sleeps on the lock -/

/-- The process is inside its `sleep(lk, &lk->lk)`. -/
structure InSleep (k : K) (chan : Word) (s : Kernel K) (p : Slot) : Prop where
  used : (s.proc p).state ≠ .unused
  args : ∃ b, (s.pc p).args = some b ∧ b.chan = chan ∧ b.lk = .other k

omit [DecidableEq K] in
theorem InSleep.not_own (h : InSleep k chan s p) : s.pc p ≠ .own := by
  obtain ⟨b, hb, -⟩ := h.args
  intro hown
  rw [hown] at hb
  cases hb

theorem InSleep.step {a : Act K} (hinv : SchedInv s) (h : InSleep k chan s p)
    (hstep : StepCase s a s') : s.Returned s' p ∨ InSleep k chan s' p := by
  have hused := used_step hstep h.used
  cases pc_step hinv hstep p with
  | still hsame => exact Or.inr ⟨hused, by rw [hsame]; exact h.args⟩
  | taken hun => exact absurd hun h.used
  | moved hr hown hargs =>
    rcases hargs with hback | hargs
    · exact Or.inl ⟨hr, hown, hback⟩
    · exact Or.inr ⟨hused, by rw [hargs]; exact h.args⟩
  | called c hr => exact absurd hr.2.2 h.not_own

/-- A process that comes back to its own code runs it. -/
theorem Kernel.Returned.inOwn {a : Act K} (hinv : SchedInv s) (hstep : StepCase s a s')
    (h : s.Returned s' p) : s'.InOwn p := by
  obtain ⟨hrun, hown, hback⟩ := h
  have hnone : s.running ≠ none := by simp [hrun]
  cases hstep with
  | unlock q l pc cpu hr | switched q r intena hr | sleepClear q b hr | sleepAcquire q b cpu hr =>
    exact ⟨hr.1, hrun, hback⟩
  | switch i hr | boot hr | back i hr => exact absurd hr.2 hnone
  | sched q q' r cpu hr hpc hc =>
    obtain rfl := hinv.self hr.2 hc
    obtain rfl : q = p := Option.some.inj (hr.2.symm.trans hrun)
    simp at hback
  | yieldState q q' hr | sleepChan q b hr | sleepState q b hr => exact ⟨hr.1, hrun, hback⟩
  | yield q cpu hr | sleep q q' ch l cpu hr | sleepPtable q q' ch hr | exit q q' hr =>
    obtain rfl : q = p := Option.some.inj (hr.2.1.symm.trans hrun)
    exact absurd hr.2.2 hown
  | alloc kstack q hr hst =>
    by_cases hq : p = q
    · subst hq
      simp at hback
    · rw [Kernel.goto_pc_of_ne hq] at hback
      exact absurd hback hown
  | _ => exact absurd hback hown

/-! ## The invariant -/

/-- Past the loop of `acquire_sleep`. -/
def SleepPc.Past (pc : SleepPc) : Prop := pc = .setPid ∨ pc = .leave ∨ pc = .between

/-- What the fields of the lock say of the processes; `as` are the steps so far. -/
structure Fields (as : List (SleepAct K)) (s : SleepLock K) : Prop where
  past : ∀ p, (s.place p).Past → s.locked = 1
  one : ∀ p q, (s.place p).Past → (s.place q).Past → p = q
  untaken : ∀ p, s.place p = .setLocked → s.locked = 0
  taken : s.locked ≠ 0 → (∃ p, s.place p = .setPid ∨ s.place p = .leave) ∨ ∃ p, .leave p ∈ as
  between : ∀ p, s.place p = .between → .leave p ∈ as
  pid : ∀ p, s.place p = .leave → s.pid = 0
  cpuPid : s.cpuPid = 0

/-- Where the processes are, and what they hold there. -/
structure Places [Fintype K] (k : K) (chan : Word) (s : SleepLock K) : Prop where
  sched : SchedInv s.kernel
  locks : LockInv s.kernel
  numbered : Numbered s.kernel
  inside : ∀ p, (s.place p).Inside → s.kernel.InOwn p ∧ (s.kernel.cpu.lock (.other k)).Held
  asleep : ∀ p, s.place p = .asleep → InSleep k chan s.kernel p

omit [DecidableEq K] in
theorem Kernel.InOwn.unique {q : Slot} (h : s.InOwn p) (h' : s.InOwn q) : p = q :=
  Option.some.inj (h.2.1.symm.trans h'.2.1)

section Fields
variable {t t' : SleepLock K} {as as' : List (SleepAct K)} {pc : SleepPc}

omit [DecidableEq K] in
/-- The processes have not moved but to the loop or to sleep. -/
theorem Fields.congr (h : Fields as t) (hsub : as ⊆ as') (hlocked : t'.locked = t.locked)
    (hpid : t'.pid = t.pid) (hcpu : t'.cpuPid = t.cpuPid)
    (hplace : ∀ p pc, pc = .setLocked ∨ pc.Past → (t'.place p = pc ↔ t.place p = pc)) :
    Fields as' t' := by
  have hpast : ∀ p, (t'.place p).Past → (t.place p).Past := fun p hp =>
    ((hplace p _ (Or.inr hp)).mp rfl).symm ▸ hp
  refine ⟨fun p hp => ?_, fun p q hp hq => h.one p q (hpast p hp) (hpast q hq), fun p hp => ?_,
    fun ht => ?_, fun p hp => ?_, fun p hp => ?_, hcpu.trans h.cpuPid⟩
  · rw [hlocked]
    exact h.past p (hpast p hp)
  · rw [hlocked]
    exact h.untaken p ((hplace p _ (Or.inl rfl)).mp hp)
  · rw [hlocked] at ht
    rcases h.taken ht with ⟨p, hp | hp⟩ | ⟨p, hp⟩
    · exact Or.inl ⟨p, Or.inl ((hplace p _ (Or.inr (Or.inl rfl))).mpr hp)⟩
    · exact Or.inl ⟨p, Or.inr ((hplace p _ (Or.inr (Or.inr (Or.inl rfl)))).mpr hp)⟩
    · exact Or.inr ⟨p, hsub hp⟩
  · exact hsub (h.between p ((hplace p _ (Or.inr (Or.inr (Or.inr rfl)))).mp hp))
  · rw [hpid]
    exact h.pid p ((hplace p _ (Or.inr (Or.inr (Or.inl rfl)))).mp hp)

omit [DecidableEq K] in
/-- The process `p` has moved, and not into the past of the loop. -/
theorem Fields.goto (h : Fields as t) (hsub : as ⊆ as') {d : Int}
    (hpast : pc.Past → (t.place p).Past) (hset : pc = .setLocked → t.locked = 0)
    (hbetween : pc = .between → .leave p ∈ as') (hd : d = 0 ∨ d = t.pid ∧ pc ≠ .leave)
    (htaken : (t.place p).Past → pc = .setPid ∨ pc = .leave ∨ .leave p ∈ as') :
    Fields as' ({ t with pid := d }.goto p pc) := by
  -- what holds of the new place holds of it where it is that of `p`, else as before
  have hplace : ∀ (P : SleepPc → Prop) q, P (({ t with pid := d }.goto p pc).place q) →
      q = p ∧ P pc ∨ q ≠ p ∧ P (t.place q) := by
    intro P q hq
    by_cases hqp : q = p
    · subst hqp
      rw [SleepLock.goto_self] at hq
      exact Or.inl ⟨rfl, hq⟩
    · rw [SleepLock.goto_of_ne hqp] at hq
      exact Or.inr ⟨hqp, hq⟩
  have hpast' : ∀ q, (({ t with pid := d }.goto p pc).place q).Past → (t.place q).Past := by
    intro q hq
    rcases hplace SleepPc.Past q hq with ⟨rfl, hpc⟩ | ⟨-, hq⟩
    · exact hpast hpc
    · exact hq
  refine ⟨fun q hq => h.past q (hpast' q hq), fun q r hq hr => h.one q r (hpast' q hq) (hpast' r hr),
    fun q hq => ?_, fun ht => ?_, fun q hq => ?_, fun q hq => ?_, h.cpuPid⟩
  · rcases hplace (· = .setLocked) q hq with ⟨-, hpc⟩ | ⟨-, hq⟩
    · exact hset hpc
    · exact h.untaken q hq
  · rcases h.taken ht with ⟨q, hq⟩ | ⟨q, hq⟩
    · by_cases hqp : q = p
      · subst hqp
        have hself := SleepLock.goto_self { t with pid := d } q pc
        rcases htaken (hq.imp_right Or.inl) with hpc | hpc | hpc
        · exact Or.inl ⟨q, Or.inl (hself.trans hpc)⟩
        · exact Or.inl ⟨q, Or.inr (hself.trans hpc)⟩
        · exact Or.inr ⟨q, hpc⟩
      · exact Or.inl ⟨q, by rwa [SleepLock.goto_of_ne hqp]⟩
    · exact Or.inr ⟨q, hsub hq⟩
  · rcases hplace (· = .between) q hq with ⟨rfl, hpc⟩ | ⟨-, hq⟩
    · exact hbetween hpc
    · exact hsub (h.between q hq)
  · rcases hd with hd | ⟨hd, hne⟩
    · exact hd
    · rcases hplace (· = .leave) q hq with ⟨-, hpc⟩ | ⟨-, hq⟩
      · exact absurd hpc hne
      · exact hd.trans (h.pid q hq)

omit [DecidableEq K] in
/-- The first process past the loop takes the lock. -/
theorem Fields.setLocked (h : Fields as t) (hp : t.place p = .setLocked)
    (halone : ∀ q, t.place q = .setLocked → q = p) :
    Fields as' ({ t with locked := 1 }.goto p .setPid) := by
  have hnone : ∀ q, ¬(t.place q).Past := by
    intro q hq
    have h1 := h.past q hq
    rw [h.untaken p hp] at h1
    cases h1
  have hp' := SleepLock.goto_self { t with locked := 1 } p .setPid
  have honly : ∀ q, (({ t with locked := 1 }.goto p .setPid).place q).Past → q = p := by
    intro q hq
    by_contra hqp
    rw [SleepLock.goto_of_ne hqp] at hq
    exact hnone q hq
  refine ⟨fun _ _ => rfl, fun q r hq hr => (honly q hq).trans (honly r hr).symm, fun q hq => ?_,
    fun _ => Or.inl ⟨p, Or.inl hp'⟩, fun q hq => ?_, fun q hq => ?_, h.cpuPid⟩
  all_goals
    have hqp : q ≠ p := by
      rintro rfl
      rw [hp'] at hq
      cases hq
    rw [SleepLock.goto_of_ne hqp] at hq
  · exact absurd (halone q hq) hqp
  · exact absurd (Or.inr (Or.inr hq)) (hnone q)
  · exact h.pid q hq

end Fields

section Places
variable [Fintype K] {t : SleepLock K} {pc : SleepPc}

theorem Places.alone (h : Places k chan t) (hown : t.kernel.InOwn p) {q : Slot}
    (hq : (t.place q).Inside) : q = p :=
  (h.inside q hq).1.unique hown

/-- The process `p` goes on without the kernel. -/
theorem Places.goto (h : Places k chan t) {l : Word} {d : Int} (hin : pc.Inside → (t.place p).Inside)
    (hne : pc ≠ .asleep) :
    Places k chan ({ t with locked := l, pid := d }.goto p pc) where
  sched := h.sched
  locks := h.locks
  numbered := h.numbered
  inside q hq := by
    by_cases hqp : q = p
    · subst hqp
      rw [SleepLock.goto_self] at hq
      exact h.inside q (hin hq)
    · rw [SleepLock.goto_of_ne hqp] at hq
      exact h.inside q hq
  asleep q hq := by
    by_cases hqp : q = p
    · subst hqp
      rw [SleepLock.goto_self] at hq
      exact absurd hq hne
    · rw [SleepLock.goto_of_ne hqp] at hq
      exact h.asleep q hq

/-- The process `p` calls a function of the kernel. -/
theorem Places.call (h : Places k chan t) (hown : t.kernel.InOwn p) {a : Act K}
    (hstep : KernelStep t.kernel a s') (hin : pc.Inside → s'.InOwn p ∧ (s'.cpu.lock (.other k)).Held)
    (hasleep : pc = .asleep → InSleep k chan s' p) :
    Places k chan ({ t with kernel := s' }.goto p pc) where
  sched := schedInv_step h.sched hstep.cases
  locks := lockInv_step h.locks h.sched hstep.cases
  numbered := numbered_step h.sched h.numbered hstep
  inside q hq := by
    by_cases hqp : q = p
    · subst hqp
      rw [SleepLock.goto_self] at hq
      exact hin hq
    · rw [SleepLock.goto_of_ne hqp] at hq
      exact absurd (h.alone hown hq) hqp
  asleep q hq := by
    by_cases hqp : q = p
    · subst hqp
      rw [SleepLock.goto_self] at hq
      exact hasleep hq
    · rw [SleepLock.goto_of_ne hqp] at hq
      refine ((h.asleep q hq).step h.sched hstep.cases).resolve_left fun hret => hqp ?_
      exact Option.some.inj (hret.1.symm.trans hown.2.1)

/-- Other code runs only while no process is inside. -/
theorem Places.kernel (h : Places k chan t) {a : Act K} (hstep : KernelStep t.kernel a s')
    (hout : ∀ p, t.kernel.InOwn p → (t.place p).Inside → a = .irqEnter) :
    Places k chan { t with
      kernel := s'
      place := fun p =>
        if t.place p = .asleep ∧ t.kernel.Returned s' p then .test else t.place p } where
  sched := schedInv_step h.sched hstep.cases
  locks := lockInv_step h.locks h.sched hstep.cases
  numbered := numbered_step h.sched h.numbered hstep
  inside q hq := by
    simp only at hq
    split_ifs at hq with hback
    · obtain ⟨b, hb, -, hlk⟩ := (h.asleep q hback.1).args
      have hheld := (sleep_returns h.locks hstep.cases hback.2 hb).1
      exact ⟨hback.2.inOwn h.sched hstep.cases, hlk ▸ hheld⟩
    · -- the handler would come with interrupts off
      obtain ⟨hown, hheld⟩ := h.inside q hq
      obtain rfl := hout q hown hq
      have hzero := h.locks.counted.zero_of_flIF hstep.1.2
      exact absurd hheld (h.locks.counted.none_held hzero _)
  asleep q hq := by
    simp only at hq
    split_ifs at hq with hback
    exact ((h.asleep q hq).step h.sched hstep.cases).resolve_left fun hret => hback ⟨hq, hret⟩

end Places

/-- The state of a run with the steps `as`. -/
structure SleepInv [Fintype K] (k : K) (chan : Word) (as : List (SleepAct K)) (s : SleepLock K) :
    Prop where
  fields : Fields as s
  places : Places k chan s

section Steps
variable [Fintype K] {t t' t₀ : SleepLock K} {as : List (SleepAct K)}

omit [Fintype K] [DecidableEq K] in
/-- Neither place is one that the fields tell of. -/
theorem Fields.goto_idle (h : Fields as t) (a : SleepAct K) {pc : SleepPc} {s' : Kernel K}
    (hp : t.place p = .out ∨ t.place p = .test) (hpc : pc = .test ∨ pc = .asleep) :
    Fields (as ++ [a]) ({ t with kernel := s' }.goto p pc) := by
  refine h.congr (List.subset_append_left _ _) rfl rfl rfl fun q pc' hpc' => ?_
  by_cases hqp : q = p
  · subst hqp
    rw [SleepLock.goto_self]
    rcases hp with hp | hp <;> rcases hpc with rfl | rfl <;> rcases hpc' with rfl | rfl | rfl | rfl
    all_goals simp [hp]
  · rw [SleepLock.goto_of_ne hqp]

theorem acquireSleep_step {chan : Word} (h : SleepInv k chan as t) (hown : t.kernel.InOwn p)
    (hp : t.place p = .out) (hstep : KernelStep t.kernel (.lock (.acquire (.other k))) s') :
    SleepInv k chan (as ++ [.acquire p]) ({ t with kernel := s' }.goto p .test) where
  fields := h.fields.goto_idle _ (Or.inl hp) (Or.inl rfl)
  places := by
    refine h.places.call hown hstep (fun _ => ?_) (by simp)
    cases hstep.cases with
    | lockAcquire _ cpu hr hcpu =>
      obtain ⟨-, -, hlock⟩ := acquire_inv h.places.locks.counted.spin hcpu
      exact ⟨hown, held_of_taken hlock⟩

theorem sleepCall_step {chan : Word} (h : SleepInv k chan as t) (hown : t.kernel.InOwn p)
    (hp : t.place p = .test)
    (hstep : KernelStep t.kernel (.own p (.sleep chan (some (.other k)))) s') :
    SleepInv k chan (as ++ [.test p]) ({ t with kernel := s' }.goto p .asleep) where
  fields := h.fields.goto_idle _ (Or.inr hp) (Or.inr rfl)
  places := by
    refine h.places.call hown hstep (fun hin => absurd hin id) fun _ => ?_
    have hused : (t.kernel.proc p).state ≠ .unused := by
      rw [h.places.sched.own_running hown]
      decide
    refine ⟨used_step hstep.cases hused, ?_⟩
    cases hstep.cases with
    | sleep _ q _ _ cpu hr hq hlk hcpu => exact ⟨⟨q, chan, .other k⟩, by simp [ProcPc.args], rfl, rfl⟩

theorem sleepInv_step {chan : Word} {a : SleepAct K} (h : SleepInv k chan as t)
    (hstep : SleepStep k chan t a t') : SleepInv k chan (as ++ [a]) t' := by
  obtain ⟨hen, hexec⟩ := hstep
  have hsub : as ⊆ as ++ [a] := List.subset_append_left _ _
  cases a with
  | kernel a =>
    obtain ⟨s', hs', hexec⟩ := bind_eq_ok.mp hexec
    cases hexec
    refine ⟨h.fields.congr hsub rfl rfl rfl fun p pc hpc => ?_,
      h.places.kernel ⟨hen.1, hs'⟩ hen.2.2⟩
    simp only
    split_ifs with hback
    · rw [hback.1]
      rcases hpc with rfl | rfl | rfl | rfl <;> simp
    · rfl
  | acquire p =>
    obtain ⟨s', hs', hexec⟩ := bind_eq_ok.mp hexec
    cases hexec
    exact acquireSleep_step h hen.1 hen.2 ⟨Or.inr ⟨p, hen.1⟩, hs'⟩
  | test p =>
    simp only [SleepAct.exec] at hexec
    split_ifs at hexec with hlocked
    · obtain ⟨s', hs', hexec⟩ := bind_eq_ok.mp hexec
      cases hexec
      exact sleepCall_step h hen.1 hen.2 ⟨⟨hen.1, trivial⟩, hs'⟩
    · cases hexec
      refine ⟨h.fields.goto hsub (by simp [SleepPc.Past]) (fun _ => not_not.mp hlocked) (by simp)
        (Or.inr ⟨rfl, by simp⟩) (by simp [SleepPc.Past, hen.2]), ?_⟩
      exact h.places.goto (fun _ => hen.2 ▸ trivial) (by simp)
  | setLocked p =>
    cases hexec
    have halone : ∀ q, t.place q = .setLocked → q = p := fun q hq =>
      h.places.alone hen.1 (hq ▸ trivial)
    have hfields : Fields as ({ t with locked := 1 }.goto p .setPid) :=
      h.fields.setLocked hen.2 halone
    exact ⟨hfields.congr hsub rfl rfl rfl fun _ _ _ => Iff.rfl,
      h.places.goto (fun _ => hen.2 ▸ trivial) (by simp)⟩
  | setPid p =>
    cases hexec
    refine ⟨h.fields.goto hsub (fun _ => Or.inl hen.2) (by simp) (by simp)
      (Or.inl h.fields.cpuPid) (fun _ => Or.inr (Or.inl rfl)), ?_⟩
    exact h.places.goto (fun _ => hen.2 ▸ trivial) (by simp)
  | leave p =>
    obtain ⟨s', hs', hexec⟩ := bind_eq_ok.mp hexec
    cases hexec
    have hleft : SleepAct.leave p ∈ as ++ [SleepAct.leave p] := by simp
    have hfields : Fields (as ++ [.leave p]) (t.goto p .between) :=
      h.fields.goto hsub (fun _ => Or.inr (Or.inl hen.2)) (by simp) (fun _ => hleft)
        (Or.inr ⟨rfl, by simp⟩) (fun _ => Or.inr (Or.inr hleft))
    refine ⟨hfields.congr (fun _ ha => ha) rfl rfl rfl fun _ _ _ => Iff.rfl, ?_⟩
    have hstep : KernelStep t.kernel (.lock (.release (.other k))) s' := ⟨Or.inr ⟨p, hen.1⟩, hs'⟩
    exact h.places.call hen.1 hstep (fun hin => absurd hin id) (by simp)
  | release p =>
    cases hexec
    refine ⟨h.fields.goto hsub (by simp [SleepPc.Past]) (by simp) (by simp) (Or.inr ⟨rfl, by simp⟩)
      (fun _ => Or.inr (Or.inr (hsub (h.fields.between p hen.2)))), ?_⟩
    exact h.places.goto (fun hin => absurd hin id) (by simp)

theorem SleepBoot.inv {chan : Word} (h : SleepBoot t) : SleepInv k chan [] t where
  fields := by
    refine ⟨fun p hp => ?_, fun p q hp => ?_, fun p hp => ?_, fun ht => absurd h.locked ht,
      fun p hp => ?_, fun _ _ => h.pid, h.cpuPid⟩
    all_goals
      rw [h.place p] at hp
      simp [SleepPc.Past] at hp
  places := by
    refine ⟨h.kernel.schedInv, h.kernel.lockInv, ⟨?_, fun q hq => absurd (h.kernel.unused q) hq⟩,
      fun p hp => ?_, fun p hp => ?_⟩
    · rw [h.nextPid]
    all_goals
      rw [h.place p] at hp
      cases hp

theorem sleepInv_run {chan : Word} (h₀ : SleepBoot t₀) (hrun : Run (SleepStep k chan) t₀ as t) :
    SleepInv k chan as t :=
  hrun.invariant h₀.inv fun _ _ _ _ h hstep => sleepInv_step h hstep

/-! ## The result -/

omit [Fintype K] [DecidableEq K] in
theorem Fields.atMostOne (h : Fields as t) : t.AtMostOne := fun p q hp hq =>
  h.one p q (Or.inr (Or.inr hp)) (Or.inr (Or.inr hq))

/-- While no `acquire_sleep` has returned, the lock is taken only inside. -/
theorem SleepInv.owned {chan : Word} (h : SleepInv k chan as t) (hleft : ∀ p, .leave p ∉ as) :
    t.Owned k := by
  intro hfree
  have hnot : ∀ p, t.place p ≠ .between := fun p hp => hleft p (h.fields.between p hp)
  refine ⟨⟨fun hlocked => ?_, fun ⟨p, hp⟩ => absurd hp (hnot p)⟩, fun p hp => absurd hp (hnot p)⟩
  have hne : t.locked ≠ 0 := by
    rw [hlocked]
    decide
  rcases h.fields.taken hne with ⟨p, hp⟩ | ⟨p, hp⟩
  · have hin : (t.place p).Inside := by rcases hp with hp | hp <;> rw [hp] <;> trivial
    have hheld := (h.places.inside p hin).2
    exact absurd hheld ((h.places.locks.counted.spin.free_iff _).mp hfree)
  · exact absurd hp (hleft p)

/-- An `acquire_sleep` that returns leaves the wrong owner. -/
theorem SleepInv.not_owned {chan : Word} (h : SleepInv k chan as t)
    (hstep : SleepStep k chan t (.leave p) t') : ¬t'.Owned k := by
  obtain ⟨⟨hown, hp⟩, hexec⟩ := hstep
  obtain ⟨s', hs', hexec⟩ := bind_eq_ok.mp hexec
  cases hexec
  have hstep : KernelStep t.kernel (.lock (.release (.other k))) s' := ⟨Or.inr ⟨p, hown⟩, hs'⟩
  intro howned
  cases hstep.cases with
  | lockRelease _ cpu hr hcpu =>
    obtain ⟨-, -, -, hlock⟩ := release_inv h.places.locks.counted.spin hcpu
    have hfree : (cpu.lock (.other k)).Free := by
      rw [hlock, Function.update_self]
      rfl
    have hpid : t.pid = (t.kernel.proc p).pid := (howned hfree).2 p (SleepLock.goto_self ..)
    have hpos := h.places.numbered.pid p (by rw [h.places.sched.own_running hown]; decide)
    rw [← hpid, h.fields.pid p hp] at hpos
    omega

/-- **Sleep locks.** In every run at most one process is between its `acquire_sleep` and its
`release_sleep`; the lock names its holder in every state of the run, and no `release_sleep` of the
run leaves a process asleep, exactly if no `acquire_sleep` of the run has returned. -/
theorem sleeplock_owned_iff {chan : Word} (h₀ : SleepBoot t₀)
    (hrun : Run (SleepStep k chan) t₀ as t) :
    t.AtMostOne ∧ (SleepLock.Correct k chan t₀ as ↔ ∀ p, .leave p ∉ as) := by
  refine ⟨(sleepInv_run h₀ hrun).fields.atMostOne, fun hcorrect p hp => ?_, fun hleft => ⟨?_, ?_⟩⟩
  · -- the run up to the return
    obtain ⟨bs, cs, rfl⟩ := List.append_of_mem hp
    obtain ⟨u, hpre, hpost⟩ := hrun.split
    obtain ⟨u', hstep, -⟩ := hpost.cons_inv
    have howned := (hcorrect.1 (bs ++ [.leave p]) cs u' (by simp) (hpre.snoc hstep)).2
    exact (sleepInv_run h₀ hpre).not_owned hstep howned
  · rintro bs cs u rfl hpre
    have hinv := sleepInv_run h₀ hpre
    exact ⟨hinv.fields.atMostOne, hinv.owned fun p hp => hleft p (List.mem_append_left _ hp)⟩
  · rintro bs p cs u rfl hpre
    obtain ⟨v, hpre, hstep⟩ := hpre.split
    have hbetween := (sleepInv_run h₀ hpre).fields.between p hstep.of_single.1.2
    exact absurd (List.mem_append_left _ hbetween) (hleft p)

end Steps

end Invariant

/-- The kernel when it boots, with the lock free. -/
def bootSleep : SleepLock Unit := ⟨bootKernel, 0, 0, 0, fun _ => .out⟩

theorem sleepBoot_bootSleep : SleepBoot bootSleep :=
  ⟨boot_bootKernel, rfl, rfl, rfl, rfl, fun _ => rfl⟩

def runSleep (k : Unit) (chan : Word) : List (SleepAct Unit) → SleepLock Unit →
    Option (SleepLock Unit) :=
  runLabels (fun a s => a.Enabled k s) fun a s => a.exec k chan s

/-- The first process takes the lock. -/
def takesLock : List (SleepAct Unit) :=
  (firstProcess ++ [Act.go]).map .kernel ++ [.acquire 0, .test 0, .setLocked 0, .setPid 0, .leave 0]

/-- The first process holds the lock and is not its recorded owner. -/
theorem sleeplock_wrong_owner : ∃ s, Run (SleepStep () 1) bootSleep takesLock s ∧
    s.place 0 = .between ∧ s.locked = 1 ∧ s.pid = 0 ∧ (s.kernel.proc 0).pid = 1 ∧ ¬s.Owned () := by
  have hexec : (runSleep () 1 takesLock bootSleep).any (fun s => decide (s.place 0 = .between ∧
      s.locked = 1 ∧ s.pid = 0 ∧ (s.kernel.proc 0).pid = 1 ∧
      (s.kernel.cpu.lock (.other ())).Free)) = true := by
    decide +kernel
  obtain ⟨s, hs, hexec⟩ := (Option.any_eq_true _ _).mp hexec
  obtain ⟨hplace, hlocked, hpid, hproc, hfree⟩ := of_decide_eq_true hexec
  refine ⟨s, run_of_runLabels hs, hplace, hlocked, hpid, hproc, fun howned => ?_⟩
  have heq := (howned hfree).2 0 hplace
  rw [hpid, hproc] at heq
  omega

/-- Two steps before, the lock is as it should be. -/
theorem sleeplock_owned_inside : ∃ s, Run (SleepStep () 1) bootSleep (takesLock.take 13) s ∧
    s.place 0 = .setPid ∧ SleepLock.Correct () 1 bootSleep (takesLock.take 13) := by
  have hexec : (runSleep () 1 (takesLock.take 13) bootSleep).any
      (fun s => decide (s.place 0 = .setPid)) = true := by
    decide +kernel
  obtain ⟨s, hs, hexec⟩ := (Option.any_eq_true _ _).mp hexec
  have hrun : Run (SleepStep () 1) bootSleep (takesLock.take 13) s := run_of_runLabels hs
  obtain ⟨-, hiff⟩ := sleeplock_owned_iff sleepBoot_bootSleep hrun
  exact ⟨s, hrun, of_decide_eq_true hexec, hiff.mpr (by decide)⟩

end TuixOS
