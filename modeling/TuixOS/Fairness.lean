import TuixOS.RoundRobin

/-!
# The wait for the CPU is bounded

A process that is `RUNNABLE` stays so until the scheduler dispatches it, and the scan of the process
table comes closer to its slot with every other process that is dispatched (`waits_step`). So fewer
than `MAX_PROC` processes are dispatched before it, however long each of them runs and whatever
becomes runnable meanwhile. `bounded_waiting` is the result.
-/

namespace TuixOS

open Lib

/-- How many slots the scan has before it, up to the slot `q`. -/
def SchedPc.distance (pc : SchedPc) (q : Slot) : Nat := (q + maxProc - pc.next) % maxProc

/-- The process `q` waits for the CPU. -/
structure Waits {K : Type} (q : Slot) (s : Kernel K) : Prop where
  bound : s.schedPc.next ≤ maxProc
  waits : (s.proc q).state = .runnable ∨ s.running = none ∧ s.schedPc = .switch q

/-- The scan has not moved away from `q`, and closer to it where another process was dispatched. -/
structure Closer {K : Type} (q : Slot) (s s' : Kernel K) : Prop where
  le : s'.schedPc.distance q ≤ s.schedPc.distance q
  lt : (∃ p, Dispatches p s s') → s'.schedPc.distance q < s.schedPc.distance q

theorem SchedPc.distance_lt (pc : SchedPc) (q : Slot) : pc.distance q < maxProc :=
  Nat.mod_lt _ (by decide)

/-- Behind a slot that is not `q`. -/
theorem distance_succ {i q : Slot} (hne : q ≠ i) :
    (q + maxProc - (i + 1)) % maxProc < (q + maxProc - i) % maxProc := by
  have hi := i.isLt
  have hq := q.isLt
  have hne := Fin.val_ne_of_ne hne
  simp only [maxProc] at *
  omega

section Steps
variable {K : Type} {s s' : Kernel K} {q : Slot}

theorem Waits.move (h : Waits q s) (hpc : s.schedPc ≠ .switch q) (hbound : s'.schedPc.next ≤ maxProc)
    (hst : (s'.proc q).state = (s.proc q).state) : Waits q s' where
  bound := hbound
  waits := by
    rcases h.waits with hq | ⟨-, hsw⟩
    · exact Or.inl (hst.trans hq)
    · exact absurd hsw hpc

theorem Waits.stay (h : Waits q s) (hspc : s'.schedPc = s.schedPc)
    (hrun : s.running = none → s'.running = none)
    (hst : (s.proc q).state = .runnable → (s'.proc q).state = .runnable) : Waits q s' where
  bound := hspc ▸ h.bound
  waits := by
    rcases h.waits with hq | ⟨hr, hsw⟩
    · exact Or.inl (hst hq)
    · exact Or.inr ⟨hrun hr, hspc.trans hsw⟩

theorem closer_of_le (hle : s'.schedPc.distance q ≤ s.schedPc.distance q)
    (hno : ∀ p, ¬Dispatches p s s') : Closer q s s' :=
  ⟨hle, fun ⟨p, hp⟩ => absurd hp (hno p)⟩

theorem closer_same (hspc : s'.schedPc = s.schedPc) (hno : ∀ p, ¬Dispatches p s s') : Closer q s s' :=
  closer_of_le (le_of_eq (congrArg (SchedPc.distance · q) hspc)) hno

variable [DecidableEq K]

theorem waits_step {a : Act K} (hinv : SchedInv s) (h : Waits q s) (hstep : StepCase s a s') :
    Dispatches q s s' ∨ Waits q s' ∧ Closer q s s' := by
  have hkeep : ¬(a = .go ∧ s.Runs none ∧ s.schedPc = .run q) →
      (s.proc q).state = .runnable → (s'.proc q).state = .runnable := by
    intro hnot hq
    by_contra hq'
    exact hnot (runnable_ends hinv hstep hq hq')
  have hidle : s'.running = s.running → ∀ p, ¬Dispatches p s s' := by
    rintro hsame p ⟨hnone, hsome⟩
    rw [hsame, hnone] at hsome
    cases hsome
  have hdist : ∀ {pc pc' : SchedPc}, s.schedPc = pc → s'.schedPc = pc' → pc'.distance q ≤ pc.distance q →
      s'.schedPc.distance q ≤ s.schedPc.distance q := by
    rintro pc pc' rfl rfl hle
    exact hle
  cases hstep with
  | boot hr hpc | sti hr hpc | schedAcquire cpu hr hpc | schedRelease cpu hr hpc =>
    refine Or.inr ⟨h.move (by rw [hpc]; nofun) (Nat.zero_le _) rfl, closer_of_le ?_ (hidle rfl)⟩
    exact hdist hpc rfl le_rfl
  | skip i hr hpc hst =>
    have hq : (s.proc q).state = .runnable := h.waits.resolve_right (by rw [hpc]; nofun)
    have hne : q ≠ i := by
      rintro rfl
      exact hst hq
    refine Or.inr ⟨h.move (by rw [hpc]; nofun) i.isLt rfl, closer_of_le ?_ (hidle rfl)⟩
    exact hdist hpc rfl (distance_succ hne).le
  | pick i hr hpc | uvm i hr hpc =>
    refine Or.inr ⟨h.move (by rw [hpc]; nofun) i.isLt.le rfl, closer_of_le ?_ (hidle rfl)⟩
    exact hdist hpc rfl le_rfl
  | scanEnd i hr hpc hi =>
    have hbound : i ≤ maxProc := by
      have hb := h.bound
      rw [hpc] at hb
      exact hb
    obtain rfl : i = maxProc := le_antisymm hbound hi
    refine Or.inr ⟨h.move (by rw [hpc]; nofun) (Nat.zero_le _) rfl, closer_of_le ?_ (hidle rfl)⟩
    refine hdist hpc rfl ?_
    simp [SchedPc.distance, SchedPc.next]
  | run i hr hpc =>
    have hclose : Closer q s ((s.setState i .running).schedGoto (.switch i)) :=
      closer_of_le (hdist hpc rfl le_rfl) (hidle rfl)
    by_cases hqi : q = i
    · subst hqi
      exact Or.inr ⟨⟨q.isLt.le, Or.inr ⟨hr.2, rfl⟩⟩, hclose⟩
    · refine Or.inr ⟨h.move (by rw [hpc]; nofun) i.isLt.le ?_, hclose⟩
      rw [Kernel.schedGoto_proc, Kernel.setState_state, if_neg hqi]
  | switch i hr hpc =>
    by_cases hqi : q = i
    · subst hqi
      exact Or.inl ⟨hr.2, rfl⟩
    · have hlt : SchedPc.distance (.back i) q < s.schedPc.distance q := by
        rw [hpc]
        exact distance_succ hqi
      exact Or.inr ⟨h.move (by rw [hpc]; simpa using Ne.symm hqi) i.isLt rfl, ⟨hlt.le, fun _ => hlt⟩⟩
  | back i hr hpc =>
    refine Or.inr ⟨h.move (by rw [hpc]; nofun) i.isLt rfl, closer_of_le ?_ (hidle rfl)⟩
    exact hdist hpc rfl le_rfl
  | unlock _ _ _ _ hr | yieldState _ _ hr | sleepChan _ _ hr | sleepState _ _ hr
  | switched _ _ _ hr | sleepClear _ _ hr | sleepAcquire _ _ _ hr =>
    exact Or.inr ⟨h.stay rfl id (hkeep fun hrun => by cases hr.2.symm.trans hrun.2.1.2),
      closer_same rfl (hidle rfl)⟩
  | sched _ _ _ _ hr =>
    refine Or.inr ⟨h.stay rfl (fun _ => rfl) (hkeep fun hrun => by cases hr.2.symm.trans hrun.2.1.2),
      closer_same rfl ?_⟩
    rintro p ⟨-, hsome⟩
    cases hsome
  | _ => exact Or.inr ⟨h.stay rfl id (hkeep fun hrun => by cases hrun.1), closer_same rfl (hidle rfl)⟩

/-- The scan ends behind the table. -/
theorem next_le_step {a : Act K} (h : s.schedPc.next ≤ maxProc) (hstep : StepCase s a s') :
    s'.schedPc.next ≤ maxProc := by
  cases hstep with
  | boot | sti | schedAcquire | schedRelease | scanEnd => exact Nat.zero_le _
  | skip i | switch i | back i => exact i.isLt
  | pick i | uvm i | run i => exact i.isLt.le
  | _ => exact h

theorem next_le_run {s₀ : Kernel K} {as : List (Act K)} (h₀ : Boot s₀) (hrun : Run KernelStep s₀ as s) :
    s.schedPc.next ≤ maxProc := by
  have hboot : s₀.schedPc.next ≤ maxProc := by
    rw [h₀.schedPc]
    exact Nat.zero_le _
  exact hrun.state_invariant hboot fun _ _ _ h hstep => next_le_step h hstep.cases

/-- A step that does not dispatch `q`. -/
def PassesOver (q : Slot) (s : Kernel K) (a : Act K) (s' : Kernel K) : Prop :=
  KernelStep s a s' ∧ ¬Dispatches q s s'

/-- **The wait is bounded.** From any state in which a process `q` is `RUNNABLE`, as long as `q` is
not dispatched it stays so (or is the process that the scheduler is switching to), and at most as
many processes are dispatched as there are slots from the place of the scan to `q`. -/
theorem bounded_waiting {s₀ s t : Kernel K} {as bs : List (Act K)} {n : Nat} (h₀ : Boot s₀)
    (hrun : Run KernelStep s₀ as s) (hq : (s.proc q).state = .runnable)
    (hwait : Run.Hits (PassesOver q) (fun x _ y => ∃ p, Dispatches p x y) s bs n t) :
    ((t.proc q).state = .runnable ∨ t.running = none ∧ t.schedPc = .switch q) ∧
      n ≤ s.schedPc.distance q ∧ s.schedPc.distance q < maxProc := by
  have hwaits : SchedInv s ∧ Waits q s := ⟨schedInv_run h₀ hrun, next_le_run h₀ hrun, Or.inl hq⟩
  obtain ⟨⟨-, hend⟩, hrank⟩ := hwait.rank_le (I := fun x => SchedInv x ∧ Waits q x)
    (r := fun x => x.schedPc.distance q) hwaits fun a x y hx hstep => by
      obtain ⟨hwaits, hcloser⟩ := (waits_step hx.1 hx.2 hstep.1.cases).resolve_left hstep.2
      exact ⟨⟨schedInv_step hx.1 hstep.1.cases, hwaits⟩, hcloser.le, hcloser.lt⟩
  exact ⟨hend.waits, by omega, SchedPc.distance_lt _ q⟩

end Steps

instance decidableDispatches {K : Type} (p : Slot) (s s' : Kernel K) : Decidable (Dispatches p s s') :=
  inferInstanceAs (Decidable (_ ∧ _))

/-- The step, if it does not dispatch `q`. -/
def Act.execOver (q : Slot) (a : Act Unit) (s : Kernel Unit) : Res (Kernel Unit) :=
  match a.exec s with
  | .ok s' => if Dispatches q s s' then .error .diverge else .ok s'
  | .error e => .error e

theorem Act.execOver_eq {q : Slot} {a : Act Unit} {s s' : Kernel Unit} (h : a.execOver q s = .ok s') :
    a.exec s = .ok s' ∧ ¬Dispatches q s s' := by
  unfold Act.execOver at h
  split at h
  · next t ht =>
    split_ifs at h with hdisp
    cases h
    exact ⟨ht, hdisp⟩
  · cases h

/-- The process 0 is dispatched and yields, and the scheduler comes to the process 1. -/
def untilSecond : List (Act Unit) :=
  List.replicate 8 .go ++ [.own 0 .yield] ++ List.replicate 6 .go

theorem bounded_waiting_second : ∃ s t : Kernel Unit, Run KernelStep bootKernel twoProcesses s ∧
    (s.proc 1).state = .runnable ∧
    Run.Hits (PassesOver 1) (fun x _ y => ∃ p, Dispatches p x y) s untilSecond 1 t ∧
    1 ≤ s.schedPc.distance 1 := by
  have hexec : (runActs twoProcesses bootKernel).any (fun s => decide ((s.proc 1).state = .runnable) &&
      (runHits Act.Enabled (Act.execOver 1) (fun x _ y => ∃ p, Dispatches p x y) untilSecond s).any
        fun r => decide (r.1 = 1)) = true := by
    decide +kernel
  obtain ⟨s, hs, hexec⟩ := (Option.any_eq_true _ _).mp hexec
  obtain ⟨hq, hexec⟩ := Bool.and_eq_true_iff.mp hexec
  obtain ⟨⟨n, t⟩, hr, hn⟩ := (Option.any_eq_true _ _).mp hexec
  obtain rfl : n = 1 := of_decide_eq_true hn
  have hq : (s.proc 1).state = .runnable := of_decide_eq_true hq
  have hrun := run_of_runActs hs
  have hwait : Run.Hits (PassesOver 1) (fun x _ y => ∃ p, Dispatches p x y) s untilSecond 1 t :=
    (hits_of_runHits hr).mono fun a x y hstep =>
      ⟨⟨hstep.1, (Act.execOver_eq hstep.2).1⟩, (Act.execOver_eq hstep.2).2⟩
  exact ⟨s, t, hrun, hq, hwait, (bounded_waiting boot_bootKernel hrun hq hwait).2.1⟩

end TuixOS
