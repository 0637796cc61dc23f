import TuixOS.SleepLock

/-!
# A sleep lock is taken once

`release_sleep` does not clear `locked`. The first `acquire_sleep` that comes through leaves the lock
taken for good (`Spent`), so every process that is then in an `acquire_sleep` of it, or calls one
later, tests the lock and sleeps, again and again. The process that took it is one of them, if it
calls again behind its own `release_sleep`. `sleeplock_once` is the result.
-/

namespace TuixOS

open Lib

/-- In the loop of `acquire_sleep`. -/
def SleepPc.InLoop (pc : SleepPc) : Prop := pc = .test ∨ pc = .asleep

/-- The lock is taken, and no process is about to take it; only `p` can have it. -/
structure SleepLock.Spent {K : Type} (p : Slot) (s : SleepLock K) : Prop where
  locked : s.locked = 1
  place : ∀ q, s.place q = .out ∨ (s.place q).InLoop ∨ q = p ∧ s.place q = .between

section Once
variable {K : Type} [DecidableEq K] {k : K} {chan : Word} {s s' t t₀ t₁ t₂ t₃ : SleepLock K}
  {as bs : List (SleepAct K)} {p q : Slot} {a : SleepAct K}

omit [DecidableEq K] in
theorem SleepLock.Spent.place_ne (h : s.Spent p) {pc : SleepPc}
    (hpc : pc = .setLocked ∨ pc = .setPid ∨ pc = .leave) : s.place q ≠ pc := by
  rintro rfl
  rcases h.place q with hq | (hq | hq) | ⟨-, hq⟩
  all_goals
    rw [hq] at hpc
    simp at hpc

/-- What a step can do to a spent lock: a process goes round in the loop, or releases. -/
theorem SleepLock.Spent.step_cases (h : s.Spent p) (hstep : SleepStep k chan s a s') :
    s'.locked = s.locked ∧ ∀ q, s'.place q = s.place q ∨ (s'.place q).InLoop ∨
      s.place q = .between ∧ s'.place q = .out := by
  have hgoto : ∀ {r pc} {kernel : Kernel K}, pc.InLoop ∨ s.place r = .between ∧ pc = .out →
      ∀ q, ({ s with kernel := kernel }.goto r pc).place q = s.place q ∨
        (({ s with kernel := kernel }.goto r pc).place q).InLoop ∨
        s.place q = .between ∧ ({ s with kernel := kernel }.goto r pc).place q = .out := by
    intro r pc kernel hpc q
    by_cases hr : q = r
    · subst hr
      rw [SleepLock.goto_self]
      exact Or.inr hpc
    · exact Or.inl (SleepLock.goto_of_ne hr)
  obtain ⟨hen, hexec⟩ := hstep
  cases a with
  | kernel a =>
    obtain ⟨kernel, -, hexec⟩ := bind_eq_ok.mp hexec
    cases hexec
    refine ⟨rfl, fun q => ?_⟩
    simp only
    split_ifs
    · exact Or.inr (Or.inl (Or.inl rfl))
    · exact Or.inl rfl
  | acquire r =>
    obtain ⟨kernel, -, hexec⟩ := bind_eq_ok.mp hexec
    cases hexec
    exact ⟨rfl, hgoto (Or.inl (Or.inl rfl))⟩
  | test r =>
    have hne : s.locked ≠ 0 := by
      rw [h.locked]
      decide
    rw [SleepAct.exec, if_pos hne] at hexec
    obtain ⟨kernel, -, hexec⟩ := bind_eq_ok.mp hexec
    cases hexec
    exact ⟨rfl, hgoto (Or.inl (Or.inr rfl))⟩
  | release r =>
    cases hexec
    exact ⟨rfl, hgoto (Or.inr ⟨hen.2, rfl⟩)⟩
  | setLocked r => exact absurd hen.2 (h.place_ne (Or.inl rfl))
  | setPid r => exact absurd hen.2 (h.place_ne (Or.inr (Or.inl rfl)))
  | leave r => exact absurd hen.2 (h.place_ne (Or.inr (Or.inr rfl)))

theorem SleepLock.Spent.step (h : s.Spent p) (hstep : SleepStep k chan s a s') : s'.Spent p := by
  obtain ⟨hlocked, hplace⟩ := h.step_cases hstep
  refine ⟨hlocked.trans h.locked, fun q => ?_⟩
  rcases hplace q with hsame | hloop | ⟨-, hout⟩
  · rw [hsame]
    exact h.place q
  · exact Or.inr (Or.inl hloop)
  · exact Or.inl hout

/-- The loop of `acquire_sleep` does not end. -/
theorem SleepLock.Spent.inLoop_step (h : s.Spent p) (hq : (s.place q).InLoop)
    (hstep : SleepStep k chan s a s') : (s'.place q).InLoop := by
  rcases (h.step_cases hstep).2 q with hsame | hloop | ⟨hbetween, -⟩
  · rwa [hsame]
  · exact hloop
  · rw [hbetween] at hq
    rcases hq with hq | hq <;> cases hq

theorem SleepLock.Spent.run (h : s.Spent p) (hrun : Run (SleepStep k chan) s as t) : t.Spent p :=
  hrun.state_invariant h fun _ _ _ h hstep => h.step hstep

theorem SleepLock.Spent.no_leave (h : s.Spent p) (hrun : Run (SleepStep k chan) s as t) (q : Slot) :
    .leave q ∉ as := by
  intro hq
  obtain ⟨bs, cs, rfl⟩ := List.append_of_mem hq
  obtain ⟨u, hpre, hpost⟩ := hrun.split
  obtain ⟨u', hstep, -⟩ := hpost.cons_inv
  exact (h.run hpre).place_ne (Or.inr (Or.inr rfl)) hstep.1.2

theorem SleepLock.Spent.inLoop_run (h : s.Spent p) (hq : (s.place q).InLoop)
    (hrun : Run (SleepStep k chan) s as t) : (t.place q).InLoop :=
  (hrun.state_invariant (I := fun u => u.Spent p ∧ (u.place q).InLoop) ⟨h, hq⟩
    fun _ _ _ hu hstep => ⟨hu.1.step hstep, hu.1.inLoop_step hu.2 hstep⟩).2

/-- A call of `acquire_sleep` goes into the loop. -/
theorem inLoop_acquire (hstep : SleepStep k chan s (.acquire q) s') : (s'.place q).InLoop := by
  obtain ⟨kernel, -, hexec⟩ := bind_eq_ok.mp hstep.2
  cases hexec
  rw [SleepLock.goto_self]
  exact Or.inl rfl

theorem SleepLock.Spent.inLoop_of_acquire (h : s.Spent p) (hrun : Run (SleepStep k chan) s as t)
    (hq : .acquire q ∈ as) : (t.place q).InLoop := by
  obtain ⟨bs, cs, rfl⟩ := List.append_of_mem hq
  obtain ⟨u, hpre, hpost⟩ := hrun.split
  obtain ⟨u', hstep, hrest⟩ := hpost.cons_inv
  exact ((h.run hpre).step hstep).inLoop_run (inLoop_acquire hstep) hrest

/-- The first `acquire_sleep` to return spends the lock. -/
theorem SleepInv.spent [Fintype K] (h : SleepInv k chan as s)
    (hstep : SleepStep k chan s (.leave p) s') : s'.Spent p := by
  obtain ⟨⟨hown, hp⟩, hexec⟩ := hstep
  obtain ⟨kernel, -, hexec⟩ := bind_eq_ok.mp hexec
  cases hexec
  have hpast : (s.place p).Past := Or.inr (Or.inl hp)
  refine ⟨h.fields.past p hpast, fun q => ?_⟩
  by_cases hq : q = p
  · subst hq
    exact Or.inr (Or.inr ⟨rfl, SleepLock.goto_self ..⟩)
  · rw [SleepLock.goto_of_ne hq]
    -- past the loop there is only `p`, and inside the inner lock too
    have hnot : ¬(s.place q).Past := fun hpq => hq (h.fields.one q p hpq hpast)
    have hin : ¬(s.place q).Inside := fun hin => hq (h.places.alone hown hin)
    generalize s.place q = pc at hnot hin
    cases pc with
    | out => exact Or.inl rfl
    | asleep => exact Or.inr (Or.inl (Or.inr rfl))
    | between => exact absurd (Or.inr (Or.inr rfl)) hnot
    | test | setLocked | setPid | leave => exact absurd trivial hin

/-- **A sleep lock is taken once.** In a run in which an `acquire_sleep` returns, no other call of it
returns, before or behind, whatever `release_sleep` and `wakeup` are called; the lock stays taken, and
a process that is in the loop of `acquire_sleep` at the return, or calls it later, stays in the
loop. -/
theorem sleeplock_once [Fintype K] (h₀ : SleepBoot t₀) (hbefore : Run (SleepStep k chan) t₀ as t₁)
    (hleave : SleepStep k chan t₁ (.leave p) t₂) (hafter : Run (SleepStep k chan) t₂ bs t₃) :
    (∀ q, .leave q ∉ as ++ bs) ∧ t₃.locked = 1 ∧
      ∀ q, (t₂.place q).InLoop ∨ .acquire q ∈ bs → (t₃.place q).InLoop := by
  have hspent : t₂.Spent p := (sleepInv_run h₀ hbefore).spent hleave
  refine ⟨fun q hq => ?_, (hspent.run hafter).locked, fun q hq => ?_⟩
  · rcases List.mem_append.mp hq with hq | hq
    · -- behind an earlier return `p` would not have come past the loop
      obtain ⟨cs, ds, rfl⟩ := List.append_of_mem hq
      obtain ⟨u, hpre, hpost⟩ := hbefore.split
      obtain ⟨u', hstep, hrest⟩ := hpost.cons_inv
      have hearly : u'.Spent q := (sleepInv_run h₀ hpre).spent hstep
      exact (hearly.run hrest).place_ne (Or.inr (Or.inr rfl)) hleave.1.2
    · exact hspent.no_leave hafter q hq
  · rcases hq with hq | hq
    · exact hspent.inLoop_run hq hafter
    · exact hspent.inLoop_of_acquire hafter hq

end Once

/-- The first process releases the lock and takes it again. -/
def takesAgain : List (SleepAct Unit) := [.release 0, .acquire 0, .test 0]

/-- It waits for itself. -/
theorem sleeplock_once_again : ∃ t₁ t₂ t₃, Run (SleepStep () 1) bootSleep (takesLock.take 14) t₁ ∧
    SleepStep () 1 t₁ (.leave 0) t₂ ∧ Run (SleepStep () 1) t₂ takesAgain t₃ ∧
    t₃.locked = 1 ∧ (t₃.place 0).InLoop := by
  have hexec : (runSleep () 1 (takesLock ++ takesAgain) bootSleep).isSome = true := by
    decide +kernel
  obtain ⟨t₃, ht₃⟩ := Option.isSome_iff_exists.mp hexec
  have hrun : Run (SleepStep () 1) bootSleep (takesLock ++ takesAgain) t₃ := run_of_runLabels ht₃
  have hsplit : takesLock ++ takesAgain = takesLock.take 14 ++ .leave 0 :: takesAgain := by decide
  rw [hsplit] at hrun
  obtain ⟨t₁, hbefore, hrest⟩ := hrun.split
  obtain ⟨t₂, hleave, hafter⟩ := hrest.cons_inv
  obtain ⟨-, hlocked, hwait⟩ := sleeplock_once sleepBoot_bootSleep hbefore hleave hafter
  exact ⟨t₁, t₂, t₃, hbefore, hleave, hafter, hlocked, hwait 0 (Or.inr (by decide))⟩

end TuixOS
