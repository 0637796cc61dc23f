import TuixOS.Stop
import TuixOS.Lib.Bytes
import TuixOS.Lib.Run
import Mathlib.Data.Fintype.Card

/-!
# Spinlocks and interrupt nesting: `kernel/sys/spinlock.c`

The lock functions over the one CPU and the locks `L` of the kernel. Of `struct cpu` there are the
fields they use, with the interrupt flag of `eflags` beside them. `seen` records `ncli` and the flag
after each instruction that sets one of them; no function reads it.

`SpinInv` is kept by `pushcli` and `popcli`, so by all four operations, and `spinlock_nesting` is
what it says about a run of them.
-/

namespace TuixOS

open Lib

/-- `struct spinlock`; `cpu` is an index into `cpus`, or null. -/
structure Spinlock where
  locked : Word
  cpu : Option Nat
  deriving DecidableEq

def cpuId : Nat := 0

structure Cpu (L : Type) where
  ncli : Int
  intena : Bool
  flIF : Bool
  lock : L → Spinlock
  seen : List (Int × Bool)

section Operations
variable {L : Type}

def cli (c : Cpu L) : Cpu L := { c with flIF := false, seen := (c.ncli, false) :: c.seen }

def sti (c : Cpu L) : Cpu L := { c with flIF := true, seen := (c.ncli, true) :: c.seen }

def setNcli (n : Int) (c : Cpu L) : Cpu L := { c with ncli := n, seen := (n, c.flIF) :: c.seen }

/-- `INT_MAX` -/
def intMax : Int := 2147483647

def pushcli (c : Cpu L) : Res (Cpu L) :=
  let eflags := c.flIF
  let c := cli c
  let c := { c with intena := if c.ncli = 0 then eflags else c.intena }
  if c.ncli = intMax then .error .overflow else .ok (setNcli (c.ncli + 1) c)

def popcli (c : Cpu L) : Res (Cpu L) :=
  if c.flIF then .error (.panic "popcli - interruptible")
  else
    let c := setNcli (c.ncli - 1) c
    if c.ncli < 0 then .error (.panic "popcli")
    else if c.ncli = 0 ∧ c.intena then .ok (sti c)
    else .ok c

def holding (lk : L) (c : Cpu L) : Res (Bool × Cpu L) := do
  let c ← pushcli c
  let r := (c.lock lk).locked ≠ 0 ∧ (c.lock lk).cpu = some cpuId
  let c ← popcli c
  return (r, c)

variable [DecidableEq L]

def acquire (lk : L) (c : Cpu L) : Res (Cpu L) := do
  let c ← pushcli c
  let (r, c) ← holding lk c
  if r then throw (.panic "acquire")
  -- interrupts are off and no other CPU can release the lock: an `xchg` that fails fails for ever
  if (c.lock lk).locked ≠ 0 then throw .diverge
  return { c with lock := Function.update c.lock lk ⟨1, some cpuId⟩ }

def release (lk : L) (c : Cpu L) : Res (Cpu L) := do
  let (r, c) ← holding lk c
  if !r then throw (.panic "release")
  popcli { c with lock := Function.update c.lock lk ⟨0, none⟩ }

end Operations

/-! ## The invariant -/

/-- A lock as `init_lock` leaves it. -/
def Spinlock.Free (lk : Spinlock) : Prop := lk = ⟨0, none⟩

/-- A lock this CPU holds. -/
def Spinlock.Held (lk : Spinlock) : Prop := lk = ⟨1, some cpuId⟩

instance (lk : Spinlock) : Decidable lk.Free := inferInstanceAs (Decidable (_ = _))
instance (lk : Spinlock) : Decidable lk.Held := inferInstanceAs (Decidable (_ = _))

structure SpinInv {L : Type} (c : Cpu L) : Prop where
  nonneg : 0 ≤ c.ncli
  bound : c.ncli ≤ intMax
  off : 0 < c.ncli → c.flIF = false
  locks : ∀ lk, (c.lock lk).Free ∨ (c.lock lk).Held
  seen : ∀ e ∈ c.seen, 0 < e.1 → e.2 = false

/-- The interrupt flag outside the critical section, which is saved while inside one. -/
def Cpu.outside {L : Type} (c : Cpu L) : Bool := if c.ncli = 0 then c.flIF else c.intena

/-- The nesting moved by `d`, and the flag of the outside is kept. -/
structure Nests {L : Type} (c c' : Cpu L) (d : Int) : Prop where
  inv : SpinInv c'
  ncli : c'.ncli = c.ncli + d
  outside : c'.outside = c.outside

section Specs
variable {L : Type} {c c' c'' : Cpu L}

theorem SpinInv.free_iff (h : SpinInv c) (lk : L) : (c.lock lk).Free ↔ ¬(c.lock lk).Held := by
  constructor
  · intro hf hh
    rw [Spinlock.Free] at hf
    rw [Spinlock.Held, hf] at hh
    simp at hh
  · exact (h.locks lk).resolve_right

theorem Cpu.outside_zero (h : c.ncli = 0) : c.outside = c.flIF := if_pos h

theorem Cpu.outside_ne_zero (h : c.ncli ≠ 0) : c.outside = c.intena := if_neg h

theorem Nests.trans {d d' : Int} (h : Nests c c' d) (h' : Nests c' c'' d') :
    Nests c c'' (d + d') where
  inv := h'.inv
  ncli := by rw [h'.ncli, h.ncli, Int.add_assoc]
  outside := h'.outside.trans h.outside

theorem pushcli_eq (c : Cpu L) : pushcli c =
    if c.ncli = intMax then .error .overflow
    else .ok (setNcli (c.ncli + 1)
      { cli c with intena := if c.ncli = 0 then c.flIF else c.intena }) := rfl

theorem pushcli_ok (h : SpinInv c) (hb : c.ncli < intMax) :
    ∃ c', pushcli c = .ok c' ∧ Nests c c' 1 ∧ c'.lock = c.lock := by
  have hnn := h.nonneg
  have hpos : c.ncli + 1 ≠ 0 := by omega
  refine ⟨_, (pushcli_eq c).trans (if_neg (by omega)), ⟨⟨?_, ?_, fun _ => rfl, h.locks, ?_⟩, rfl, ?_⟩,
    rfl⟩
  · simp only [setNcli]
    omega
  · simp only [setNcli]
    omega
  · intro e he
    rcases List.mem_cons.mp he with rfl | he
    · simp [cli]
    rcases List.mem_cons.mp he with rfl | he
    · simp
    · exact h.seen e he
  · rw [Cpu.outside_ne_zero (by simpa [setNcli] using hpos)]
    rfl

theorem popcli_ok (h : SpinInv c) (hpos : 0 < c.ncli) :
    ∃ c', popcli c = .ok c' ∧ Nests c c' (-1) ∧ c'.lock = c.lock := by
  have hb := h.bound
  have hoff := h.off hpos
  have hseen : ∀ e ∈ (c.ncli - 1, c.flIF) :: c.seen, 0 < e.1 → e.2 = false := by
    intro e he
    rcases List.mem_cons.mp he with rfl | he
    · simp [hoff]
    · exact h.seen e he
  have hrun : popcli c = .ok (if c.ncli - 1 = 0 ∧ c.intena then sti (setNcli (c.ncli - 1) c)
      else setNcli (c.ncli - 1) c) := by
    have hge : ¬c.ncli - 1 < 0 := by omega
    simp only [popcli, hoff, setNcli, hge, if_false, Bool.false_eq_true]
    split_ifs <;> rfl
  have hne : c.ncli ≠ 0 := by omega
  refine ⟨_, hrun, ?_⟩
  split_ifs with hlast
  · refine ⟨⟨⟨?_, ?_, ?_, h.locks, ?_⟩, rfl, ?_⟩, rfl⟩
    · simp only [sti, setNcli]
      omega
    · simp only [sti, setNcli]
      omega
    · simp only [sti, setNcli]
      omega
    · intro e he
      rcases List.mem_cons.mp he with rfl | he
      · simp [setNcli, hlast.1]
      · exact hseen e he
    · rw [Cpu.outside_ne_zero hne, hlast.2]
      exact Cpu.outside_zero hlast.1
  · refine ⟨⟨⟨?_, ?_, ?_, h.locks, hseen⟩, rfl, ?_⟩, rfl⟩
    · simp only [setNcli]
      omega
    · simp only [setNcli]
      omega
    · exact fun _ => hoff
    · rw [Cpu.outside_ne_zero hne]
      by_cases h1 : c.ncli - 1 = 0
      · have hint : c.intena ≠ true := fun hi => hlast ⟨h1, hi⟩
        rw [Bool.eq_false_of_not_eq_true hint, ← hoff]
        exact Cpu.outside_zero h1
      · exact Cpu.outside_ne_zero h1

theorem popcli_zero (h0 : c.ncli = 0) : ∃ msg, popcli c = .error (.panic msg) := by
  by_cases hif : c.flIF
  · exact ⟨"popcli - interruptible", by simp [popcli, hif]⟩
  · exact ⟨"popcli", by simp [popcli, hif, setNcli, h0]⟩

theorem holding_ok (h : SpinInv c) (hb : c.ncli < intMax) (lk : L) :
    ∃ c', holding lk c = .ok (decide (c.lock lk).Held, c') ∧ Nests c c' 0 ∧ c'.lock = c.lock := by
  have hnn := h.nonneg
  obtain ⟨c₁, hpush, hn₁, hl₁⟩ := pushcli_ok h hb
  have hncli := hn₁.ncli
  obtain ⟨c₂, hpop, hn₂, hl₂⟩ := popcli_ok hn₁.inv (by omega)
  refine ⟨c₂, ?_, hn₁.trans hn₂, hl₂.trans hl₁⟩
  have hheld : decide ((c₁.lock lk).locked ≠ 0 ∧ (c₁.lock lk).cpu = some cpuId) =
      decide (c.lock lk).Held := by
    rw [hl₁, decide_eq_decide]
    rcases h.locks lk with hf | hh
    · exact iff_of_false (by rw [hf]; simp) ((h.free_iff lk).mp hf)
    · exact iff_of_true (by rw [hh]; simp) hh
  rw [holding, hpush]
  simp only [bind, Except.bind, hpop, hheld]
  rfl

theorem holding_inv {lk : L} {r : Bool} (h : SpinInv c) (hrun : holding lk c = .ok (r, c')) :
    r = decide (c.lock lk).Held ∧ Nests c c' 0 ∧ c'.lock = c.lock := by
  by_cases hb : c.ncli < intMax
  · obtain ⟨c₁, hrun₁, hspec⟩ := holding_ok h hb lk
    obtain ⟨rfl, rfl⟩ : decide (c.lock lk).Held = r ∧ c₁ = c' := by
      simpa using hrun₁.symm.trans hrun
    exact ⟨rfl, hspec⟩
  · have hbound := h.bound
    rw [holding, pushcli_eq, if_pos (by omega)] at hrun
    cases hrun

theorem SpinInv.cli (h : SpinInv c) : SpinInv (cli c) where
  nonneg := h.nonneg
  bound := h.bound
  off _ := rfl
  locks := h.locks
  seen e he := by
    rcases List.mem_cons.mp he with rfl | he
    · simp
    · exact h.seen e he

theorem SpinInv.sti (h : SpinInv c) (h0 : c.ncli = 0) : SpinInv (sti c) where
  nonneg := h.nonneg
  bound := h.bound
  off hpos := by
    rw [show (TuixOS.sti c).ncli = c.ncli from rfl, h0] at hpos
    omega
  locks := h.locks
  seen e he := by
    rcases List.mem_cons.mp he with rfl | he
    · simp [h0]
    · exact h.seen e he

variable [DecidableEq L] {lk : L}

theorem SpinInv.lock_update (h : SpinInv c) (lk : L) {v : Spinlock} (hv : v.Free ∨ v.Held) :
    SpinInv { c with lock := Function.update c.lock lk v } where
  nonneg := h.nonneg
  bound := h.bound
  off := h.off
  locks lk' := by
    by_cases hlk : lk' = lk
    · subst hlk
      simpa using hv
    · simpa [Function.update_of_ne hlk] using h.locks lk'
  seen := h.seen

theorem Nests.lock_update {d : Int} (h : Nests c c' d) (lk : L) {v : Spinlock}
    (hv : v.Free ∨ v.Held) :
    Nests c { c' with lock := Function.update c'.lock lk v } d :=
  ⟨h.inv.lock_update lk hv, h.ncli, h.outside⟩

/-- `acquire` up to its test of the lock. -/
theorem acquire_enter (h : SpinInv c) (hb : c.ncli + 1 < intMax) (lk : L) :
    ∃ c', Nests c c' 1 ∧ c'.lock = c.lock ∧ acquire lk c =
      if (c.lock lk).Held then .error (.panic "acquire")
      else if (c.lock lk).locked ≠ 0 then .error .diverge
      else .ok { c' with lock := Function.update c.lock lk ⟨1, some cpuId⟩ } := by
  obtain ⟨c₁, hpush, hn₁, hl₁⟩ := pushcli_ok h (by omega)
  have hncli := hn₁.ncli
  obtain ⟨c₂, hhold, hn₂, hl₂⟩ := holding_ok hn₁.inv (by omega) lk
  refine ⟨c₂, hn₁.trans hn₂, hl₂.trans hl₁, ?_⟩
  rw [acquire, hpush]
  simp only [bind, Except.bind, hhold, hl₂, hl₁]
  by_cases hheld : (c.lock lk).Held
  · simp only [hheld, decide_true, if_true]
    rfl
  · by_cases hlocked : (c.lock lk).locked ≠ 0
    · simp only [hheld, decide_false, if_false, if_pos hlocked, Bool.false_eq_true]
      rfl
    · simp only [hheld, decide_false, if_false, if_neg hlocked, Bool.false_eq_true]
      rfl

theorem acquire_ok (h : SpinInv c) (hb : c.ncli + 1 < intMax) (hfree : (c.lock lk).Free) :
    ∃ c', acquire lk c = .ok c' ∧ Nests c c' 1 ∧
      c'.lock = Function.update c.lock lk ⟨1, some cpuId⟩ := by
  obtain ⟨c₁, hn, hl, hrun⟩ := acquire_enter h hb lk
  have hlocked : ¬(c.lock lk).locked ≠ 0 := by
    rw [Spinlock.Free] at hfree
    simp [hfree]
  rw [if_neg ((h.free_iff lk).mp hfree), if_neg hlocked] at hrun
  refine ⟨_, hrun, ?_, rfl⟩
  rw [← hl]
  exact hn.lock_update lk (Or.inr rfl)

/-- Taking a lock twice panics; it does not spin. -/
theorem acquire_held (h : SpinInv c) (hb : c.ncli + 1 < intMax) (hheld : (c.lock lk).Held) :
    acquire lk c = .error (.panic "acquire") := by
  obtain ⟨c₁, -, -, hrun⟩ := acquire_enter h hb lk
  rwa [if_pos hheld] at hrun

theorem acquire_overflow (h : SpinInv c) (hb : intMax ≤ c.ncli + 1) :
    acquire lk c = .error .overflow := by
  have hbound := h.bound
  by_cases hmax : c.ncli = intMax
  · rw [acquire, pushcli_eq, if_pos hmax]
    rfl
  · obtain ⟨c₁, hpush, hn₁, -⟩ := pushcli_ok h (by omega)
    have hncli := hn₁.ncli
    rw [acquire, hpush]
    simp only [bind, Except.bind, holding, pushcli_eq]
    rw [if_pos (by omega)]

theorem acquire_inv (h : SpinInv c) (hrun : acquire lk c = .ok c') :
    (c.lock lk).Free ∧ Nests c c' 1 ∧ c'.lock = Function.update c.lock lk ⟨1, some cpuId⟩ := by
  by_cases hb : c.ncli + 1 < intMax
  · rcases h.locks lk with hfree | hheld
    · obtain ⟨c₁, hrun₁, hspec⟩ := acquire_ok h hb hfree
      obtain rfl : c₁ = c' := by simpa using hrun₁.symm.trans hrun
      exact ⟨hfree, hspec⟩
    · rw [acquire_held h hb hheld] at hrun
      cases hrun
  · rw [acquire_overflow h (by omega)] at hrun
    cases hrun

theorem held_of_taken (hl : c'.lock = Function.update c.lock lk ⟨1, some cpuId⟩) : (c'.lock lk).Held := by
  rw [hl, Function.update_self]
  rfl

theorem release_ok (h : SpinInv c) (hpos : 0 < c.ncli) (hb : c.ncli < intMax)
    (hheld : (c.lock lk).Held) : ∃ c', release lk c = .ok c' ∧ Nests c c' (-1) ∧
      c'.lock = Function.update c.lock lk ⟨0, none⟩ := by
  obtain ⟨c₁, hhold, hn₁, hl₁⟩ := holding_ok h hb lk
  have hncli := hn₁.ncli
  have hn₁' := hn₁.lock_update lk (v := ⟨0, none⟩) (Or.inl rfl)
  obtain ⟨c₂, hpop, hn₂, hl₂⟩ := popcli_ok hn₁'.inv (by simp only; omega)
  refine ⟨c₂, ?_, ?_, ?_⟩
  · rw [release, hhold]
    simp only [hheld]
    exact hpop
  · have := hn₁'.trans hn₂
    simpa using this
  · rw [hl₂, ← hl₁]

/-- What `acquire` has taken, `release` gives back. -/
theorem release_taken (h : SpinInv c) (hfree : (c.lock lk).Free) (hroom : c.ncli + 1 < intMax)
    (hn : Nests c c' 1) (hl : c'.lock = Function.update c.lock lk ⟨1, some cpuId⟩) :
    ∃ c'', release lk c' = .ok c'' ∧ Nests c c'' 0 ∧ c''.lock = c.lock := by
  have hncli := hn.ncli
  have hnn := h.nonneg
  obtain ⟨c'', hrel, hn', hl'⟩ := release_ok hn.inv (by omega) (by omega) (held_of_taken hl)
  refine ⟨c'', hrel, hn.trans hn', ?_⟩
  rw [hl', hl, Function.update_idem]
  exact Function.update_eq_self_iff.mpr hfree.symm

/-- `release` returns only when the lock was held and `ncli` positive. -/
theorem release_inv (h : SpinInv c) (hrun : release lk c = .ok c') :
    (c.lock lk).Held ∧ 0 < c.ncli ∧ Nests c c' (-1) ∧
      c'.lock = Function.update c.lock lk ⟨0, none⟩ := by
  have hnn := h.nonneg
  by_cases hb : c.ncli < intMax
  · obtain ⟨c₁, hhold, hn₁, hl₁⟩ := holding_ok h hb lk
    have hncli := hn₁.ncli
    rcases h.locks lk with hfree | hheld
    · rw [release, hhold] at hrun
      simp only [(h.free_iff lk).mp hfree] at hrun
      cases hrun
    · by_cases h0 : c.ncli = 0
      · obtain ⟨msg, hpop⟩ := popcli_zero (c := { c₁ with lock := Function.update c₁.lock lk ⟨0, none⟩ })
          (by simp only; omega)
        rw [release, hhold] at hrun
        simp only [hheld] at hrun
        exact absurd (hpop.symm.trans hrun) (by simp)
      · obtain ⟨c₂, hrun₂, hspec⟩ := release_ok h (by omega) hb hheld
        obtain rfl : c₂ = c' := by simpa using hrun₂.symm.trans hrun
        exact ⟨hheld, by omega, hspec⟩
  · have hbound := h.bound
    rw [release, holding, pushcli_eq, if_pos (by omega)] at hrun
    cases hrun

end Specs

/-! ## Runs of the four operations -/

inductive SpinOp (L : Type)
  | acquire (lk : L)
  | release (lk : L)
  | pushcli
  | popcli
  deriving DecidableEq

section Runs
variable {L : Type} [DecidableEq L]

def SpinOp.run : SpinOp L → Cpu L → Res (Cpu L)
  | .acquire lk => TuixOS.acquire lk
  | .release lk => TuixOS.release lk
  | .pushcli => TuixOS.pushcli
  | .popcli => TuixOS.popcli

/-- An operation that returns. -/
def SpinStep (c : Cpu L) (op : SpinOp L) (c' : Cpu L) : Prop := op.run c = .ok c'

/-- A CPU outside every critical section, with all locks as `init_lock` leaves them and the
interrupt flag set or not. -/
structure Quiet (c : Cpu L) : Prop where
  ncli : c.ncli = 0
  free : ∀ lk, (c.lock lk).Free
  seen : c.seen = []

omit [DecidableEq L] in
theorem Quiet.inv {c : Cpu L} (h : Quiet c) : SpinInv c where
  nonneg := by rw [h.ncli]
  bound := by rw [h.ncli]; decide
  off hpos := by rw [h.ncli] at hpos; omega
  locks lk := Or.inl (h.free lk)
  seen e he := by rw [h.seen] at he; exact absurd he List.not_mem_nil

/-- The calls of `pushcli` that no `popcli` has undone. -/
def outstanding (ops : List (SpinOp L)) : Int := ops.count .pushcli - ops.count .popcli

def heldCount [Fintype L] (c : Cpu L) : Int := (Finset.univ.filter fun lk => (c.lock lk).Held).card

theorem outstanding_snoc (ops : List (SpinOp L)) (op : SpinOp L) :
    outstanding (ops ++ [op]) = outstanding ops + outstanding [op] := by
  simp only [outstanding, List.count_append]
  push_cast
  omega

variable [Fintype L] {c c' : Cpu L} {lk : L}

/-- One more lock is held. -/
theorem heldCount_insert (hother : ∀ lk', lk' ≠ lk → c'.lock lk' = c.lock lk')
    (hnot : ¬(c.lock lk).Held) (hheld : (c'.lock lk).Held) : heldCount c' = heldCount c + 1 := by
  have hset : (Finset.univ.filter fun lk' => (c'.lock lk').Held) =
      insert lk (Finset.univ.filter fun lk' => (c.lock lk').Held) := by
    ext lk'
    rw [Finset.mem_insert, Finset.mem_filter, Finset.mem_filter]
    by_cases hlk : lk' = lk
    · subst hlk
      simp [hheld]
    · simp [hlk, hother lk' hlk]
  rw [heldCount, hset, Finset.card_insert_of_notMem (by simpa using hnot)]
  push_cast
  rfl

theorem SpinStep.nests {op : SpinOp L} (h : SpinInv c) (hstep : SpinStep c op c') :
    Nests c c' (heldCount c' - heldCount c + outstanding [op]) := by
  cases op with
  | acquire lk =>
    obtain ⟨hfree, hn, hl⟩ := acquire_inv h hstep
    have hcount : heldCount c' = heldCount c + 1 :=
      heldCount_insert (fun lk' hlk => by rw [hl, Function.update_of_ne hlk])
        ((h.free_iff lk).mp hfree) (held_of_taken hl)
    rw [hcount]
    simpa [outstanding] using hn
  | release lk =>
    obtain ⟨hheld, -, hn, hl⟩ := release_inv h hstep
    have hcount : heldCount c = heldCount c' + 1 :=
      heldCount_insert (fun lk' hlk => by rw [hl, Function.update_of_ne hlk])
        (by rw [hl, Function.update_self]; decide) hheld
    rw [hcount]
    simpa [outstanding] using hn
  | pushcli =>
    by_cases hb : c.ncli < intMax
    · obtain ⟨c₁, hrun, hn, hl⟩ := pushcli_ok h hb
      obtain rfl : c₁ = c' := by simpa using hrun.symm.trans hstep
      simpa [outstanding, heldCount, hl] using hn
    · have hbound := h.bound
      rw [SpinStep, SpinOp.run, pushcli_eq, if_pos (by omega)] at hstep
      cases hstep
  | popcli =>
    have hnn := h.nonneg
    by_cases h0 : c.ncli = 0
    · obtain ⟨msg, hpop⟩ := popcli_zero h0
      exact absurd (hpop.symm.trans hstep) (by simp)
    · obtain ⟨c₁, hrun, hn, hl⟩ := popcli_ok h (by omega)
      obtain rfl : c₁ = c' := by simpa using hrun.symm.trans hstep
      simpa [outstanding, heldCount, hl] using hn

omit [DecidableEq L] in
theorem Quiet.heldCount {c : Cpu L} (h : Quiet c) : heldCount c = 0 := by
  have hnone : ∀ lk, ¬(c.lock lk).Held := fun lk => (h.inv.free_iff lk).mp (h.free lk)
  simp [TuixOS.heldCount, hnone]

theorem spinRun_nests {c₀ : Cpu L} {ops : List (SpinOp L)} (h : SpinInv c₀)
    (hrun : Run SpinStep c₀ ops c) :
    Nests c₀ c (heldCount c - heldCount c₀ + outstanding ops) := by
  induction hrun with
  | nil => exact ⟨h, by simp [outstanding], rfl⟩
  | snoc hrun hstep ih =>
    have hn := ih.trans (hstep.nests ih.inv)
    rw [outstanding_snoc]
    convert hn using 1
    omega

/-- **Interrupt nesting.** In every run of the four operations `ncli` counts the locks held and the
open `pushcli`s, interrupts are off while it is positive, a lock is taken exactly when this CPU
holds it, so `acquire` never spins, and the flag comes back as it was when `ncli` left 0. -/
theorem spinlock_nesting {c₀ : Cpu L} {ops : List (SpinOp L)} (h₀ : Quiet c₀)
    (hrun : Run SpinStep c₀ ops c) :
    c.ncli = heldCount c + outstanding ops ∧
    (0 < c.ncli → c.flIF = false) ∧
    (∀ e ∈ c.seen, 0 < e.1 → e.2 = false) ∧
    (∀ lk, (c.lock lk).locked = 1 ↔ (c.lock lk).cpu = some cpuId) ∧
    (∀ lk, acquire lk c ≠ .error .diverge) ∧
    (∀ lk, (c.lock lk).locked = 1 → c.ncli + 1 < intMax →
      acquire lk c = .error (.panic "acquire")) ∧
    ∀ as c₁ bs, Run SpinStep c₀ as c₁ → Run SpinStep c₁ bs c → c₁.ncli = 0 → c.ncli = 0 →
      c.flIF = c₁.flIF := by
  have hn := spinRun_nests h₀.inv hrun
  have hinv := hn.inv
  have hheld : ∀ lk, (c.lock lk).locked = 1 → (c.lock lk).Held := by
    intro lk h1
    rcases hinv.locks lk with hfree | hheld
    · rw [Spinlock.Free] at hfree
      rw [hfree] at h1
      simp at h1
    · exact hheld
  refine ⟨?_, hinv.off, hinv.seen, fun lk => ?_, fun lk => ?_, fun lk h1 hb => ?_, ?_⟩
  · rw [hn.ncli, h₀.ncli, h₀.heldCount]
    omega
  · rcases hinv.locks lk with hfree | hheld
    · rw [Spinlock.Free] at hfree
      simp [hfree]
    · rw [Spinlock.Held] at hheld
      simp [hheld]
  · rcases hinv.locks lk with hfree | hheld
    · by_cases hb : c.ncli + 1 < intMax
      · obtain ⟨c', hacq, -⟩ := acquire_ok hinv hb hfree
        simp [hacq]
      · simp [acquire_overflow hinv (not_lt.mp hb)]
    · by_cases hb : c.ncli + 1 < intMax
      · simp [acquire_held hinv hb hheld]
      · simp [acquire_overflow hinv (not_lt.mp hb)]
  · exact acquire_held hinv hb (hheld lk h1)
  · intro as c₁ bs hrun₁ hrun₂ hz₁ hz
    have hn₁ := spinRun_nests h₀.inv hrun₁
    have hn₂ := spinRun_nests hn₁.inv hrun₂
    rw [← Cpu.outside_zero hz, ← Cpu.outside_zero hz₁]
    exact hn₂.outside

/-- Two locks released in the order they were taken, with interrupts on outside. -/
theorem spinlock_nesting_crossed : ∃ c : Cpu Bool,
    Run SpinStep ⟨0, false, true, fun _ => ⟨0, none⟩, []⟩
      [.acquire true, .acquire false, .release true, .pushcli, .release false] c ∧
    c.ncli = heldCount c + 1 ∧ (0 < c.ncli → c.flIF = false) ∧ c.ncli = 1 := by
  obtain ⟨c, hrun, h1⟩ : ∃ c : Cpu Bool, Run SpinStep ⟨0, false, true, fun _ => ⟨0, none⟩, []⟩
      [.acquire true, .acquire false, .release true, .pushcli, .release false] c ∧ c.ncli = 1 :=
    ⟨_, Run.cons rfl (Run.cons rfl (Run.cons rfl (Run.cons rfl (Run.cons rfl Run.nil)))), rfl⟩
  have hquiet : Quiet (⟨0, false, true, fun _ => ⟨0, none⟩, []⟩ : Cpu Bool) :=
    ⟨rfl, fun _ => rfl, rfl⟩
  obtain ⟨hcount, hoff, -⟩ := spinlock_nesting hquiet hrun
  exact ⟨c, hrun, hcount, hoff, h1⟩

end Runs

end TuixOS
