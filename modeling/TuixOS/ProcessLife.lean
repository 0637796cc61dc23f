import TuixOS.SleepLock
import TuixOS.RoundRobin

/-!
# The life of a process

No code sets a slot of the process table back to `UNUSED`, but `config_proc_kstack` its own one when
there is no stack, and no code takes a `ZOMBIE` for anything. So a slot serves one process for good
(`identity_step`), and every process that is made takes one more slot (`inUse_step`).
`slots_never_reused` is the result over whole runs.
-/

namespace TuixOS

open Lib

/-- The slots in use. -/
def inUse {K : Type} (s : Kernel K) : Finset Slot :=
  Finset.univ.filter fun q => (s.proc q).state ≠ .unused

/-- A step takes an unused slot. -/
def Creates {K : Type} (s s' : Kernel K) : Prop :=
  ∃ q, (s.proc q).state = .unused ∧ (s'.proc q).state ≠ .unused

instance {K : Type} (s s' : Kernel K) : Decidable (Creates s s') := inferInstanceAs (Decidable (∃ _, _))

section Steps
variable {K : Type} {s s' : Kernel K} {q : Slot}

theorem mem_inUse : q ∈ inUse s ↔ (s.proc q).state ≠ .unused := by simp [inUse]

variable [DecidableEq K]

/-- `config_proc_kstack` alone writes the pid and the stack, and of unused slots alone. -/
theorem identity_step {a : Act K} (hstep : KernelStep s a s') (hq : (s.proc q).state ≠ .unused) :
    (s'.proc q).pid = (s.proc q).pid ∧ (s'.proc q).kstack = (s.proc q).kstack := by
  have hset : ∀ i st, ((s.setState i st).proc q).pid = (s.proc q).pid ∧
      ((s.setState i st).proc q).kstack = (s.proc q).kstack := by
    intro i st
    by_cases hi : q = i
    · subst hi
      simp [Kernel.setState]
    · simp [Kernel.setState, hi]
  have hchan : ∀ i ch, ((s.setChan i ch).proc q).pid = (s.proc q).pid ∧
      ((s.setChan i ch).proc q).kstack = (s.proc q).kstack := by
    intro i ch
    by_cases hi : q = i
    · subst hi
      simp [Kernel.setChan]
    · simp [Kernel.setChan, hi]
  have hexec := hstep.2
  cases hstep.cases with
  | run | yieldState | sleepState | exit => exact hset _ _
  | sleepChan | sleepClear => exact hchan _ _
  | wakeup ch =>
    simp only [wokenProc]
    split_ifs <;> exact ⟨rfl, rfl⟩
  | allocFail i hst proc | alloc _ i _ hst proc =>
    have hi : q ≠ i := by
      rintro rfl
      exact hq hst
    have hsame : Function.update s.proc i proc q = s.proc q := Function.update_of_ne hi ..
    exact ⟨congrArg Proc.pid hsame, congrArg Proc.kstack hsame⟩
  | runnable i pgdir hr hst proc hproc =>
    -- the case does not say what else the step writes
    simp only [Act.exec, makeRunnable] at hexec
    split_ifs at hexec
    have hproc' := congrFun (congrArg Kernel.proc (Except.ok.inj hexec)) q
    simp only at hproc'
    show (Function.update s.proc i proc q).pid = _ ∧ (Function.update s.proc i proc q).kstack = _
    rw [← hproc']
    by_cases hi : q = i
    · subst hi
      simp [Kernel.setState]
    · simp [Kernel.setState, hi]
  | _ => exact ⟨rfl, rfl⟩

/-- The slot that `alloc_process` has taken. -/
theorem alloc_created {kstack : Word} (hstep : KernelStep s (.alloc kstack) s')
    (hun : (s.proc q).state = .unused) (hq : (s'.proc q).state ≠ .unused) :
    (s'.proc q).kstack = kstack ∧ s'.pc q = .forkRet ∧ s'.running = s.running ∧
      ∀ q', q' ≠ q → s'.proc q' = s.proc q' := by
  obtain ⟨r, hr, hexec⟩ := bind_eq_ok.mp hstep.2
  cases hexec
  unfold allocProcess at hr
  cases hfind : (List.finRange maxProc).find? fun i => (s.proc i).state = .unused with
  | none =>
    rw [hfind] at hr
    cases hr
    exact absurd hun hq
  | some i =>
    rw [hfind] at hr
    simp only [configProcKstack] at hr
    split_ifs at hr with hmax hk
    · cases hr
      refine absurd ?_ hq
      by_cases hi : q = i
      · subst hi
        simp [Kernel.setState]
      · simpa [Kernel.setState, hi] using hun
    · cases hr
      by_cases hi : q = i
      · subst hi
        exact ⟨by simp, by simp, rfl, fun q' hq' => by simp [hq']⟩
      · refine absurd ?_ hq
        simpa [hi] using hun

/-- Every process that is made takes one more slot. -/
theorem inUse_step {a : Act K} (hinv : SchedInv s) (hstep : KernelStep s a s') :
    (Creates s s' → (inUse s').card = (inUse s).card + 1) ∧ (¬Creates s s' → inUse s' = inUse s) := by
  constructor
  · rintro ⟨q, hun, hq⟩
    obtain ⟨kstack, rfl⟩ : ∃ kstack, a = .alloc kstack := by
      by_contra hno
      exact used_before hinv hstep.cases (fun kstack he => hno ⟨kstack, he⟩) hq hun
    obtain ⟨-, -, -, hother⟩ := alloc_created hstep hun hq
    have hinsert : inUse s' = insert q (inUse s) := by
      ext q'
      rw [Finset.mem_insert, mem_inUse, mem_inUse]
      by_cases hqq : q' = q
      · subst hqq
        simp [hq]
      · rw [hother q' hqq]
        simp [hqq]
    rw [hinsert, Finset.card_insert_of_notMem fun hmem => mem_inUse.mp hmem hun]
  · intro hno
    ext q
    rw [mem_inUse, mem_inUse]
    exact ⟨fun hq hun => hno ⟨q, hun, hq⟩, used_step hstep.cases⟩

/-- No step takes a process out of `ZOMBIE`. -/
theorem zombie_step {a : Act K} (hinv : SchedInv s) (hstep : StepCase s a s')
    (hq : (s.proc q).state = .zombie) : (s'.proc q).state = .zombie := by
  by_contra hq'
  have hwrite := state_change hinv hstep (hq ▸ hq')
  rw [hq] at hwrite
  generalize (s'.proc q).state = st at hwrite
  cases hwrite

/-- The scheduler switches to a process that it has set `RUNNING`. -/
theorem running_of_dispatches {a : Act K} (hinv : SchedInv s) (hstep : StepCase s a s')
    (h : Dispatches q s s') : (s.proc q).state = .running := by
  have hspc := (dispatch_cases hstep h.1 q).1 h.2
  have hok := hinv.scheduler h.1
  rw [hspc] at hok
  exact (hok.2 q).mpr rfl

/-- What a process in use keeps over a run. -/
structure Lasts (s t : Kernel K) (q : Slot) : Prop where
  used : (t.proc q).state ≠ .unused
  pid : (t.proc q).pid = (s.proc q).pid
  kstack : (t.proc q).kstack = (s.proc q).kstack
  zombie : (s.proc q).state = .zombie → (t.proc q).state = .zombie

theorem lasts_run {t : Kernel K} {as : List (Act K)} (hinv : SchedInv s) (hrun : Run KernelStep s as t)
    (hq : (s.proc q).state ≠ .unused) : SchedInv t ∧ Lasts s t q := by
  refine hrun.state_invariant (I := fun t => SchedInv t ∧ Lasts s t q)
    ⟨hinv, hq, rfl, rfl, id⟩ fun a t t' ht hstep => ?_
  obtain ⟨hpid, hkstack⟩ := identity_step hstep ht.2.used
  exact ⟨schedInv_step ht.1 hstep.cases, used_step hstep.cases ht.2.used, hpid.trans ht.2.pid,
    hkstack.trans ht.2.kstack, fun hz => zombie_step ht.1 hstep.cases (ht.2.zombie hz)⟩

omit [DecidableEq K] in
theorem allocProcess_full (hfull : ∀ q, (s.proc q).state ≠ .unused) (kstack : Word) :
    allocProcess kstack s = .ok (none, s) := by
  have hfind : ((List.finRange maxProc).find? fun i => (s.proc i).state = .unused) = none :=
    List.find?_eq_none.mpr fun q _ => by simpa using hfull q
  rw [allocProcess, hfind]

/-- **Slots are never reused.** In every run from boot as many slots are in use as processes have been
made, so at most `MAX_PROC` are ever made. From there on a slot in use keeps its pid and its stack; a
process that has exited stays `ZOMBIE` and is not switched to; and when `MAX_PROC` have been made,
`alloc_process` returns null for good. -/
theorem slots_never_reused {s₀ t : Kernel K} {as bs : List (Act K)} {n : Nat} (h₀ : Boot s₀)
    (hmade : Run.Hits KernelStep (fun x _ y => Creates x y) s₀ as n s) (hrun : Run KernelStep s bs t) :
    (inUse s).card = n ∧ n ≤ maxProc ∧ (∀ q ∈ inUse s, Lasts s t q) ∧
      (∀ q, (s.proc q).state = .zombie → ∀ a u, KernelStep t a u → ¬Dispatches q t u) ∧
      (n = maxProc → ∀ kstack, allocProcess kstack t = .ok (none, t)) := by
  have hempty : (inUse s₀).card = 0 := by
    rw [Finset.card_eq_zero, Finset.eq_empty_iff_forall_notMem]
    exact fun q hq => mem_inUse.mp hq (h₀.unused q)
  obtain ⟨hinv, hcount⟩ := hmade.count_eq (I := SchedInv) (c := fun x => (inUse x).card) h₀.schedInv
    fun a x y hx hstep => ⟨schedInv_step hx hstep.cases, (inUse_step hx hstep).1, fun hno =>
      congrArg Finset.card ((inUse_step hx hstep).2 hno)⟩
  have hcard : (inUse s).card = n := by omega
  have hbound : (inUse s).card ≤ maxProc := by
    simpa using Finset.card_le_univ (inUse s)
  have hlasts : ∀ q ∈ inUse s, SchedInv t ∧ Lasts s t q := fun q hq =>
    lasts_run hinv hrun (mem_inUse.mp hq)
  refine ⟨hcard, hcard ▸ hbound, fun q hq => (hlasts q hq).2, fun q hz a u hstep hdisp => ?_,
    fun hn kstack => ?_⟩
  · obtain ⟨hinv', hlast⟩ := hlasts q (mem_inUse.mpr (by rw [hz]; decide))
    have hrunning := running_of_dispatches hinv' hstep.cases hdisp
    rw [hlast.zombie hz] at hrunning
    cases hrunning
  · have huniv : inUse s = Finset.univ := by
      rw [← Finset.card_eq_iff_eq_univ, hcard, hn]
      exact (Fintype.card_fin maxProc).symm
    exact allocProcess_full (fun q => (hlasts q (huniv ▸ Finset.mem_univ q)).2.used) kstack

end Steps

theorem slots_never_reused_two : ∃ s t : Kernel Unit,
    Run.Hits KernelStep (fun x _ y => Creates x y) bootKernel twoProcesses 2 s ∧
    Run KernelStep s (List.replicate 8 .go ++ [.own 0 .exit]) t ∧ (inUse s).card = 2 ∧
    (t.proc 0).pid = (s.proc 0).pid := by
  have hexec : (runHits Act.Enabled Act.exec (fun x _ y => Creates x y) twoProcesses
      (bootKernel : Kernel Unit)).any (fun r => decide (r.1 = 2 ∧ 0 ∈ inUse r.2) &&
        (runActs (List.replicate 8 .go ++ [.own 0 .exit]) r.2).isSome) = true := by
    decide +kernel
  obtain ⟨⟨n, s⟩, hr, hexec⟩ := (Option.any_eq_true _ _).mp hexec
  obtain ⟨hn, hexec⟩ := Bool.and_eq_true_iff.mp hexec
  obtain ⟨rfl, hzero⟩ : n = 2 ∧ 0 ∈ inUse s := of_decide_eq_true hn
  obtain ⟨t, ht⟩ := Option.isSome_iff_exists.mp hexec
  have hmade : Run.Hits KernelStep (fun x _ y => Creates x y) bootKernel twoProcesses 2 s :=
    hits_of_runHits hr
  have hrun := run_of_runActs ht
  obtain ⟨hcard, -, hlasts, -⟩ := slots_never_reused boot_bootKernel hmade hrun
  exact ⟨s, t, hmade, hrun, hcard, (hlasts 0 hzero).pid⟩

end TuixOS
