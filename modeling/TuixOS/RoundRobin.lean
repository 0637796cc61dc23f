import TuixOS.Scheduler

/-!
# No process overtakes another

The scan of `launch_first_proc` goes on behind the slot it dispatched, through the end of the table
and over the gap between two scans. A process keeps its place before `p` in the scan (`Due`) until
it is dispatched, and nothing else ends its wait; `round_robin` is the result.
-/

namespace TuixOS

open Lib

/-- The slot the scan comes to next. -/
def SchedPc.next : SchedPc → Nat
  | .scan i => i
  | .uvm i | .run i | .switch i => i
  | .back i => i + 1
  | .boot | .sti | .acquire | .release => 0

/-- From the slot `i` on, the scan comes to `q` before `p`. -/
def Before (i : Nat) (q p : Slot) : Prop :=
  i ≤ maxProc ∧ (q + maxProc - i) % maxProc < (p + maxProc - i) % maxProc

section Order
variable {i : Nat} {p q : Slot}

theorem Before.succ (h : Before i q p) (hi : i < maxProc) (hq : q.val ≠ i) : Before (i + 1) q p := by
  have hp := p.isLt
  have hql := q.isLt
  simp only [Before, maxProc] at *
  omega

theorem Before.wrap (h : Before i q p) (hi : maxProc ≤ i) : Before 0 q p := by
  have hp := p.isLt
  have hql := q.isLt
  simp only [Before, maxProc] at *
  omega

theorem before_behind (h : q ≠ p) : Before (p + 1) q p := by
  have hp := p.isLt
  have hql := q.isLt
  have hne := Fin.val_ne_of_ne h
  simp only [Before, maxProc] at *
  omega

theorem not_before_self : ¬Before p q p := by
  have hp := p.isLt
  simp only [Before, maxProc] at *
  omega

end Order

/-- The process `q` waits for the CPU, and its turn comes before that of `p`. -/
structure Due {K : Type} (p q : Slot) (s : Kernel K) : Prop where
  place : Before s.schedPc.next q p
  waits : (s.proc q).state = .runnable ∨ s.running = none ∧ s.schedPc = .switch q

/-- The step is the `switch_to` of the scheduler to the process `p`. -/
def Dispatches {K : Type} (p : Slot) (s s' : Kernel K) : Prop :=
  s.running = none ∧ s'.running = some p

section Steps
variable {K : Type} {s s' : Kernel K} {p q : Slot}

/-- Where the scan has moved on. -/
theorem Due.move (h : Due p q s) (hpc : s.schedPc ≠ .switch q)
    (hplace : Before s.schedPc.next q p → Before s'.schedPc.next q p)
    (hst : (s'.proc q).state = (s.proc q).state) : Due p q s' where
  place := hplace h.place
  waits := by
    rcases h.waits with hq | ⟨-, hsw⟩
    · exact Or.inl (hst.trans hq)
    · exact absurd hsw hpc

/-- Where the scheduler stands as it stood. -/
theorem Due.stay (h : Due p q s) (hspc : s'.schedPc = s.schedPc)
    (hrun : s.running = none → s'.running = none)
    (hst : (s.proc q).state = .runnable → (s'.proc q).state = .runnable) : Due p q s' where
  place := by
    rw [hspc]
    exact h.place
  waits := by
    rcases h.waits with hq | ⟨hr, hsw⟩
    · exact Or.inl (hst hq)
    · exact Or.inr ⟨hrun hr, hspc.trans hsw⟩

variable [DecidableEq K]

theorem due_step {a : Act K} (hinv : SchedInv s) (h : Due p q s) (hstep : StepCase s a s') :
    Dispatches q s s' ∨ Due p q s' := by
  have hkeep : ¬(a = .go ∧ s.Runs none ∧ s.schedPc = .run q) →
      (s.proc q).state = .runnable → (s'.proc q).state = .runnable := by
    intro hnot hq
    by_contra hq'
    exact hnot (runnable_ends hinv hstep hq hq')
  cases hstep with
  | boot hr hpc | sti hr hpc | schedAcquire cpu hr hpc | schedRelease cpu hr hpc =>
    refine Or.inr (h.move (by rw [hpc]; nofun) (fun hb => ?_) rfl)
    rw [hpc] at hb
    exact hb
  | skip i hr hpc hst =>
    have hq : (s.proc q).state = .runnable := h.waits.resolve_right (by rw [hpc]; nofun)
    refine Or.inr (h.move (by rw [hpc]; nofun) (fun hb => ?_) rfl)
    rw [hpc] at hb
    refine hb.succ i.isLt fun he => hst ?_
    rw [← Fin.ext he]
    exact hq
  | pick i hr hpc | uvm i hr hpc =>
    refine Or.inr (h.move (by rw [hpc]; nofun) (fun hb => ?_) rfl)
    rw [hpc] at hb
    exact hb
  | scanEnd i hr hpc hi =>
    refine Or.inr (h.move (by rw [hpc]; nofun) (fun hb => ?_) rfl)
    rw [hpc] at hb
    exact hb.wrap hi
  | run i hr hpc =>
    have hplace : Before i q p := by
      have hb := h.place
      rw [hpc] at hb
      exact hb
    by_cases hqi : q = i
    · subst hqi
      exact Or.inr ⟨hplace, Or.inr ⟨hr.2, rfl⟩⟩
    · refine Or.inr (h.move (by rw [hpc]; nofun) (fun _ => hplace) ?_)
      rw [Kernel.schedGoto_proc, Kernel.setState_state, if_neg hqi]
  | switch i hr hpc =>
    by_cases hqi : q = i
    · subst hqi
      exact Or.inl ⟨hr.2, rfl⟩
    · refine Or.inr (h.move (by rw [hpc]; simpa using Ne.symm hqi) (fun hb => ?_) rfl)
      rw [hpc] at hb
      exact hb.succ i.isLt (Fin.val_ne_of_ne hqi)
  | back i hr hpc =>
    refine Or.inr (h.move (by rw [hpc]; nofun) (fun hb => ?_) rfl)
    rw [hpc] at hb
    exact hb
  | unlock _ _ _ _ hr | yieldState _ _ hr | sleepChan _ _ hr | sleepState _ _ hr
  | switched _ _ _ hr | sleepClear _ _ hr | sleepAcquire _ _ _ hr =>
    exact Or.inr (h.stay rfl id (hkeep fun hrun => by cases hr.2.symm.trans hrun.2.1.2))
  | sched _ _ _ _ hr =>
    exact Or.inr (h.stay rfl (fun _ => rfl) (hkeep fun hrun => by cases hr.2.symm.trans hrun.2.1.2))
  | _ => exact Or.inr (h.stay rfl id (hkeep fun hrun => by cases hrun.1))

/-- The place of `q` when `p` has been dispatched. -/
theorem due_of_dispatches {a : Act K} (hstep : StepCase s a s') (hp : Dispatches p s s')
    (hne : q ≠ p) (hq : (s'.proc q).state = .runnable) : Due p q s' where
  place := by
    have hnone : s.running ≠ some p := by simp [hp.1]
    cases hstep with
    | switch i hr hpc =>
      cases hp.2
      exact before_behind hne
    | sched => cases hp.2
    | _ => exact absurd hp.2 hnone
  waits := Or.inl hq

theorem Due.not_dispatches {a : Act K} (h : Due p q s) (hstep : StepCase s a s') :
    ¬Dispatches p s s' := by
  intro hp
  have hplace := h.place
  rw [(dispatch_cases hstep hp.1 p).1 hp.2] at hplace
  exact not_before_self hplace

/-- **No overtaking.** Where a process `p` is dispatched while another process `q` is `RUNNABLE`, and
`p` is dispatched again later, `q` has been dispatched in between. -/
theorem round_robin {s₀ s t u v : Kernel K} {as bs : List (Act K)} {a b : Act K} (h₀ : Boot s₀)
    (hrun : Run KernelStep s₀ as s) (hstep : KernelStep s a t) (hp : Dispatches p s t) (hne : q ≠ p)
    (hq : (t.proc q).state = .runnable) (hrun' : Run KernelStep t bs u) (hstep' : KernelStep u b v)
    (hp' : Dispatches p u v) : Run.Through KernelStep (fun x _ y => Dispatches q x y) t bs u := by
  have ht : SchedInv t := schedInv_run h₀ (hrun.snoc hstep)
  have hdue : Due p q t := due_of_dispatches hstep.cases hp hne hq
  have hend : Run.Through KernelStep (fun x _ y => Dispatches q x y) t bs u ∨
      SchedInv u ∧ Due p q u :=
    hrun'.invariant_or_through (I := fun x => SchedInv x ∧ Due p q x) ⟨ht, hdue⟩
      fun c x y hx hxy =>
        (due_step hx.1 hx.2 hxy.cases).imp_right fun hy => ⟨schedInv_step hx.1 hxy.cases, hy⟩
  exact hend.resolve_right fun hu => hu.2.not_dispatches hstep'.cases hp'

end Steps

/-- Two processes are made at boot. -/
def twoProcesses : List (Act Unit) :=
  [.alloc 0x80400000, .runnable 0 0x80401000, .alloc 0x80402000, .runnable 1 0x80403000]

/-- The process 0 yields when it has left `fork_ret`, the process 1 does the same, and the scheduler
comes back to the process 0. -/
def oneTurn : List (Act Unit) :=
  [.go, .own 0 .yield] ++ List.replicate 7 .go ++ [.go, .own 1 .yield] ++ List.replicate 72 .go

theorem round_robin_two : ∃ s t u v : Kernel Unit,
    Run KernelStep bootKernel (twoProcesses ++ List.replicate 6 .go) s ∧ KernelStep s .go t ∧
    Dispatches 0 s t ∧ (t.proc 1).state = .runnable ∧ Run KernelStep t oneTurn u ∧
    KernelStep u .go v ∧ Dispatches 0 u v ∧
    Run.Through KernelStep (fun x _ y => Dispatches 1 x y) t oneTurn u := by
  have hexec : (runActs (twoProcesses ++ List.replicate 6 .go) bootKernel).any (fun s =>
      (runActs [.go] s).any fun t => (runActs oneTurn t).any fun u => (runActs [.go] u).any fun v =>
        decide (s.running = none ∧ t.running = some 0 ∧ (t.proc 1).state = .runnable ∧
          u.running = none ∧ v.running = some 0)) = true := by
    decide +kernel
  obtain ⟨s, hs, hexec⟩ := (Option.any_eq_true _ _).mp hexec
  obtain ⟨t, ht, hexec⟩ := (Option.any_eq_true _ _).mp hexec
  obtain ⟨u, hu, hexec⟩ := (Option.any_eq_true _ _).mp hexec
  obtain ⟨v, hv, hexec⟩ := (Option.any_eq_true _ _).mp hexec
  obtain ⟨hsr, htr, hq, hur, hvr⟩ := of_decide_eq_true hexec
  have hrun := run_of_runActs hs
  have hstep : KernelStep s .go t := (run_of_runActs ht).of_single
  have hrun' := run_of_runActs hu
  have hstep' : KernelStep u .go v := (run_of_runActs hv).of_single
  exact ⟨s, t, u, v, hrun, hstep, ⟨hsr, htr⟩, hq, hrun', hstep', ⟨hur, hvr⟩,
    round_robin boot_bootKernel hrun hstep ⟨hsr, htr⟩ (by decide) hq hrun' hstep' ⟨hur, hvr⟩⟩

end TuixOS
