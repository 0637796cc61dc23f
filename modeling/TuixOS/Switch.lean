import TuixOS.Trap
import TuixOS.Lib.Run
import Mathlib.Logic.Function.Basic
import Mathlib.Order.CompletePartialOrder

/-!
# `switch_to` of `kernel/asm/switch.asm`

The four pushes of `switch_to` and the return address of its caller are the `struct context` that
the other stack's pops and `ret` take back. `switchTo_saves` and `switchTo_restores` say so for one
call; `Threads` runs any number of threads with stacks of their own, and what a thread has on its
stack at a call of `switch_to` it gets back at the call that switches to it (`switch_preserves`).
-/

namespace TuixOS

open Lib

/-- `struct context` -/
structure Context where
  edi : Word
  esi : Word
  ebx : Word
  ebp : Word
  eip : Word
  deriving DecidableEq

/-- `sizeof(struct context)` -/
def contextSize : Nat := 20

/-- The `struct context` at an address. -/
def readContext (m : Mem) (a : Addr) : Context where
  edi := load32 m a
  esi := load32 m (a + 4)
  ebx := load32 m (a + 8)
  ebp := load32 m (a + 12)
  eip := load32 m (a + 16)

namespace X86

/-- `pop edi; pop esi; pop ebx; pop ebp` -/
def popContext (c : X86) : X86 :=
  { c with
    edi := load32 c.mem c.esp
    esi := load32 c.mem (c.esp + 4)
    ebx := load32 c.mem (c.esp + 8)
    ebp := load32 c.mem (c.esp + 12)
    esp := c.esp + 16 }

def ret (c : X86) : X86 := { c with eip := load32 c.mem c.esp, esp := c.esp + 4 }

/-- `switch_to`, from its first instruction; `esp` points to the return address. -/
def switchTo (c : X86) : X86 :=
  let c := { c with eax := load32 c.mem (c.esp + 4) }
  let c := { c with edx := load32 c.mem (c.esp + 8) }
  let c := (((c.push c.ebp).push c.ebx).push c.esi).push c.edi
  let c := { c with mem := store32 c.mem c.eax c.esp }
  let c := { c with esp := c.edx }
  ret (popContext c)

/-- What the caller of `switch_to` has to get back. -/
def callerContext (c : X86) : Context where
  edi := c.edi
  esi := c.esi
  ebx := c.ebx
  ebp := c.ebp
  eip := load32 c.mem c.esp

/-- Where `switch_to` leaves the caller's context. -/
def contextAddr (c : X86) : Addr := c.esp - 16

/-- The arguments `prev` and `next`. -/
def prevArg (c : X86) : Addr := load32 c.mem (c.esp + 4)
def nextArg (c : X86) : Addr := load32 c.mem (c.esp + 8)

end X86

/-! ## One call -/

/-- The bytes of the context that `switch_to` saves. -/
def contextBytes (c : X86) : Set Addr := {x | (x - c.contextAddr).toNat < contextSize}

/-- The bytes of a context pointer. -/
def cell (a : Addr) : Set Addr := {x | (x - a).toNat < 4}

theorem load32_of_cell {m m' : Mem} {a : Addr} (h : ∀ x ∈ cell a, m' x = m x) :
    load32 m' a = load32 m a := by
  have hload := load32_within m a (n := 4) (k := 0) h (by decide)
  rwa [show a + 0 = a from BitVec.add_zero a] at hload

/-- A context read from memory that agrees on its bytes. -/
theorem readContext_congr {m m' : Mem} {a : Addr}
    (h : ∀ x : Addr, (x - a).toNat < contextSize → m' x = m x) :
    readContext m' a = readContext m a := by
  have hload : ∀ k : Addr, k.toNat + 4 ≤ contextSize → load32 m' (a + k) = load32 m (a + k) :=
    fun _ hk => load32_within m a h hk
  have hzero : load32 m' a = load32 m a := load32_of_cell fun x hx => h x (Nat.lt_trans hx (by decide))
  simp only [readContext, hzero, hload 4 (by decide), hload 8 (by decide), hload 12 (by decide),
    hload 16 (by decide)]

namespace X86
variable {c : X86}

/-- Memory after the four pushes. -/
def savedMem (c : X86) : Mem := ((((c.push c.ebp).push c.ebx).push c.esi).push c.edi).mem

theorem switchTo_mem (c : X86) :
    (switchTo c).mem = store32 (savedMem c) (prevArg c) (contextAddr c) := by
  have hesp : c.esp - 4 - 4 - 4 - 4 = contextAddr c := by
    unfold contextAddr
    bv_omega
  rw [← hesp]
  rfl

theorem savedMem_words (c : X86) :
    WordsAt (savedMem c) (contextAddr c) [c.edi, c.esi, c.ebx, c.ebp, load32 c.mem c.esp] := by
  have hret : WordsAt c.mem c.esp [load32 c.mem c.esp] := ⟨rfl, trivial⟩
  have hpush := pushes_words (l := [c.ebp, c.ebx, c.esi, c.edi]) hret (by simp)
  have hesp : (([c.ebp, c.ebx, c.esi, c.edi]).foldl push c).esp = contextAddr c := by
    show c.esp - 4 - 4 - 4 - 4 = c.esp - 16
    bv_omega
  rw [hesp] at hpush
  exact hpush

/-- The pushes write below the return address only. -/
theorem savedMem_outside {x : Addr} (hx : x ∉ contextBytes c) : savedMem c x = c.mem x := by
  have hx' : ¬(x - (c.esp - 16)).toNat < 20 := hx
  show store32 (store32 (store32 (store32 c.mem (c.esp - 4) c.ebp) (c.esp - 4 - 4) c.ebx)
    (c.esp - 4 - 4 - 4) c.esi) (c.esp - 4 - 4 - 4 - 4) c.edi x = c.mem x
  rw [store32_outside, store32_outside, store32_outside, store32_outside] <;> bv_omega

/-- A call of `switch_to` writes the caller's context and the pointer to it, and nothing else. -/
theorem switchTo_outside {x : Addr} (hx : x ∉ contextBytes c) (hx' : x ∉ cell (prevArg c)) :
    (switchTo c).mem x = c.mem x := by
  rw [switchTo_mem, store32_outside _ _ _ _ (not_lt.mp hx'), savedMem_outside hx]

/-- The caller's context is saved under the pointer it passed. -/
theorem switchTo_saves (hapart : Disjoint (contextBytes c) (cell (prevArg c))) :
    load32 (switchTo c).mem (prevArg c) = contextAddr c ∧
      readContext (switchTo c).mem (contextAddr c) = callerContext c := by
  rw [switchTo_mem]
  refine ⟨load32_store32 .., ?_⟩
  have hw := savedMem_words c
  have hread : readContext (savedMem c) (contextAddr c) = callerContext c := by
    have hesi : load32 (savedMem c) (contextAddr c + 4) = c.esi := hw.get (k := 1) rfl
    have hebx : load32 (savedMem c) (contextAddr c + 8) = c.ebx := hw.get (k := 2) rfl
    have hebp : load32 (savedMem c) (contextAddr c + 12) = c.ebp := hw.get (k := 3) rfl
    have heip : load32 (savedMem c) (contextAddr c + 16) = load32 c.mem c.esp :=
      hw.get (k := 4) rfl
    simp only [readContext, callerContext, hw.1, hesi, hebx, hebp, heip]
  rw [← hread]
  refine readContext_congr fun x hx => store32_outside _ _ _ _ ?_
  exact not_lt.mp fun hcell => Set.disjoint_left.mp hapart hx hcell

/-- `d` runs on with the registers of `k` and its stack above it. -/
structure Restored (k : Context) (a : Addr) (d : X86) : Prop where
  edi : d.edi = k.edi
  esi : d.esi = k.esi
  ebx : d.ebx = k.ebx
  ebp : d.ebp = k.ebp
  eip : d.eip = k.eip
  esp : d.esp = a + BitVec.ofNat 32 contextSize

/-- The registers are taken from the context at `esp`. -/
theorem ret_popContext {d : X86} {m : Mem} {a : Addr} (hmem : d.mem = m) (hesp : d.esp = a) :
    Restored (readContext m a) a (ret (popContext d)) := by
  subst hmem hesp
  exact ⟨rfl, rfl, rfl, rfl, rfl, BitVec.add_assoc _ 16 4⟩

/-- A call takes the registers from the context it was given, as memory has it after the save. -/
theorem switchTo_restores (c : X86) :
    Restored (readContext (switchTo c).mem (nextArg c)) (nextArg c) (switchTo c) := by
  have hmem (d : X86) : (ret (popContext d)).mem = d.mem := rfl
  simp only [switchTo, hmem]
  exact ret_popContext rfl rfl

end X86

/-! ## Threads -/

/-- Stacks and context pointers of the threads, apart from each other. -/
structure Threads (T : Type) where
  stack : T → Set Addr
  ctx : T → Addr
  apart : Pairwise fun t u => Disjoint (stack t ∪ cell (ctx t)) (stack u ∪ cell (ctx u))

/-- What no other thread writes while it runs. -/
def Threads.own {T : Type} (Θ : Threads T) (t : T) : Set Addr := Θ.stack t ∪ cell (Θ.ctx t)

/-- The processor, the thread it runs, and how it was at the last call of `switch_to` by each. -/
structure Running (T : Type) where
  cpu : X86
  cur : T
  saved : T → Option X86

inductive ThreadAct (T : Type)
  | run
  | switch (next : T)

section Threads
variable {T : Type} [DecidableEq T]

/-- The calls of `switch_to` with the one that is being made. -/
def Running.called (s : Running T) : T → Option X86 := Function.update s.saved s.cur (some s.cpu)

theorem Running.called_cur (s : Running T) : s.called s.cur = some s.cpu := Function.update_self ..

theorem Running.called_of_ne {s : Running T} {t : T} (h : t ≠ s.cur) : s.called t = s.saved t :=
  Function.update_of_ne h ..

/-- A thread runs, or calls `switch_to` with the context that the next one last saved. -/
inductive ThreadStep (Θ : Threads T) (s : Running T) : ThreadAct T → Running T → Prop
  | run (cpu : X86) (hmem : ∀ t, t ≠ s.cur → ∀ x ∈ Θ.own t, cpu.mem x = s.cpu.mem x) :
      ThreadStep Θ s .run { s with cpu := cpu }
  | switch (next : T) (r : X86) (hstack : contextBytes s.cpu ⊆ Θ.stack s.cur)
      (hapart : Disjoint (contextBytes s.cpu) (cell (Θ.ctx s.cur)))
      (hprev : s.cpu.prevArg = Θ.ctx s.cur) (hr : s.called next = some r)
      (hnext : s.cpu.nextArg = r.contextAddr) :
      ThreadStep Θ s (.switch next) ⟨s.cpu.switchTo, next, s.called⟩

/-- The context that `t` saved at the call `r` is on its stack, under its pointer. -/
structure ContextOk (Θ : Threads T) (m : Mem) (t : T) (r : X86) : Prop where
  stack : contextBytes r ⊆ Θ.stack t
  pointer : load32 m (Θ.ctx t) = r.contextAddr
  context : readContext m r.contextAddr = r.callerContext

/-- Every thread that does not run can be switched to. -/
def ThreadsOk (Θ : Threads T) (s : Running T) : Prop :=
  ∀ t, t ≠ s.cur → ∀ r, s.saved t = some r → ContextOk Θ s.cpu.mem t r

variable {Θ : Threads T} {s s' : Running T}

omit [DecidableEq T] in
theorem ContextOk.congr {m m' : Mem} {t : T} {r : X86} (h : ContextOk Θ m t r)
    (hm : ∀ x ∈ Θ.own t, m' x = m x) : ContextOk Θ m' t r where
  stack := h.stack
  pointer := by
    rw [← h.pointer]
    exact load32_of_cell fun x hx => hm x (Or.inr hx)
  context := by
    rw [← h.context]
    exact readContext_congr fun x hx => hm x (Or.inl (h.stack hx))

/-- A call leaves the context of every thread that has called, its own included. -/
theorem switch_contexts {t : T} {r : X86} (hok : ThreadsOk Θ s)
    (hstack : contextBytes s.cpu ⊆ Θ.stack s.cur)
    (hapart : Disjoint (contextBytes s.cpu) (cell (Θ.ctx s.cur)))
    (hprev : s.cpu.prevArg = Θ.ctx s.cur) (hr : s.called t = some r) :
    ContextOk Θ s.cpu.switchTo.mem t r := by
  rw [← hprev] at hapart
  by_cases ht : t = s.cur
  · subst ht
    rw [Running.called_cur, Option.some_inj] at hr
    subst hr
    obtain ⟨hptr, hctx⟩ := X86.switchTo_saves hapart
    rw [hprev] at hptr
    exact ⟨hstack, hptr, hctx⟩
  · rw [Running.called_of_ne ht] at hr
    refine (hok t ht r hr).congr fun x hx => X86.switchTo_outside ?_ ?_
    · exact fun hin => Set.disjoint_left.mp (Θ.apart ht) hx (Or.inl (hstack hin))
    · rw [hprev]
      exact fun hin => Set.disjoint_left.mp (Θ.apart ht) hx (Or.inr hin)

theorem ThreadsOk.step {a : ThreadAct T} (hok : ThreadsOk Θ s) (hstep : ThreadStep Θ s a s') :
    ThreadsOk Θ s' := by
  cases hstep with
  | run cpu hmem => exact fun t ht r hr => (hok t ht r hr).congr (hmem t ht)
  | switch next r hstack hapart hprev hr hnext =>
    exact fun t _ r' hr' => switch_contexts hok hstack hapart hprev hr'

/-- Whoever is switched to gets back what it had at its last call. -/
theorem switch_restores {t : T} (hok : ThreadsOk Θ s) (hstep : ThreadStep Θ s (.switch t) s') :
    ∃ r, s.called t = some r ∧ X86.Restored r.callerContext r.contextAddr s'.cpu := by
  cases hstep with
  | switch _ r hstack hapart hprev hr hnext =>
    refine ⟨r, hr, ?_⟩
    have hctx := (switch_contexts hok hstack hapart hprev hr).context
    have hres := X86.switchTo_restores s.cpu
    rw [hnext, hctx] at hres
    exact hres

/-- The call of a thread is on record until it is switched to. -/
theorem saved_until {t : T} {r : X86} {as : List (ThreadAct T)} (hcur : s.cur ≠ t)
    (hsaved : s.saved t = some r) (hrun : Run (ThreadStep Θ) s as s')
    (hout : ThreadAct.switch t ∉ as) : s'.cur ≠ t ∧ s'.saved t = some r := by
  induction hrun with
  | nil => exact ⟨hcur, hsaved⟩
  | @snoc as a s₁ s₂ hrun hstep ih =>
    rw [List.mem_append, not_or] at hout
    obtain ⟨hcur₁, hsaved₁⟩ := ih hout.1
    cases hstep with
    | run cpu hmem => exact ⟨hcur₁, hsaved₁⟩
    | switch next r' hstack hapart hprev hr hnext =>
      have hne : next ≠ t := by
        rintro rfl
        simp at hout
      exact ⟨hne, (Running.called_of_ne (Ne.symm hcur₁)).trans hsaved₁⟩

/-- **Context switch.** A thread that has called `switch_to` is switched back to with the registers
it had, its return address popped, whatever the others did in between. -/
theorem switch_preserves (Θ : Threads T) {s₀ s₁ s₁' s₂ s₂' : Running T} {as bs : List (ThreadAct T)}
    {next : T} (h0 : ThreadsOk Θ s₀) (hrun : Run (ThreadStep Θ) s₀ as s₁)
    (hcall : ThreadStep Θ s₁ (.switch next) s₁') (hne : next ≠ s₁.cur)
    (hrun' : Run (ThreadStep Θ) s₁' bs s₂) (hout : ThreadAct.switch s₁.cur ∉ bs)
    (hback : ThreadStep Θ s₂ (.switch s₁.cur) s₂') :
    s₂'.cur = s₁.cur ∧
      s₂'.cpu.edi = s₁.cpu.edi ∧ s₂'.cpu.esi = s₁.cpu.esi ∧ s₂'.cpu.ebx = s₁.cpu.ebx ∧
      s₂'.cpu.ebp = s₁.cpu.ebp ∧ s₂'.cpu.esp = s₁.cpu.esp + 4 ∧
      s₂'.cpu.eip = load32 s₁.cpu.mem s₁.cpu.esp := by
  have hok₁ : ThreadsOk Θ s₁ := hrun.state_invariant h0 fun _ _ _ hok hstep => hok.step hstep
  have hok₁' : ThreadsOk Θ s₁' := hok₁.step hcall
  have hok₂ : ThreadsOk Θ s₂ := hrun'.state_invariant hok₁' fun _ _ _ hok hstep => hok.step hstep
  -- the record of the call is still there when the thread is switched back to
  have hrec : s₁'.cur ≠ s₁.cur ∧ s₁'.saved s₁.cur = some s₁.cpu := by
    cases hcall
    exact ⟨hne, s₁.called_cur⟩
  obtain ⟨hcur₂, hsaved₂⟩ := saved_until hrec.1 hrec.2 hrun' hout
  obtain ⟨r, hr, hres⟩ := switch_restores hok₂ hback
  rw [Running.called_of_ne (Ne.symm hcur₂), hsaved₂, Option.some_inj] at hr
  subst hr
  have hcur : s₂'.cur = s₁.cur := by
    cases hback
    rfl
  have hesp : s₁.cpu.contextAddr + BitVec.ofNat 32 contextSize = s₁.cpu.esp + 4 := by
    unfold X86.contextAddr contextSize
    bv_omega
  exact ⟨hcur, hres.edi, hres.esi, hres.ebx, hres.ebp, hres.esp.trans hesp, hres.eip⟩

end Threads

/-! Two threads with a page of stack each. -/

def twoThreads : Threads Bool where
  stack t := if t then {x | (x - 0x2000).toNat < 4096} else {x | (x - 0x1000).toNat < 4096}
  ctx t := if t then 0x104 else 0x100
  apart := by
    have hpages : ∀ x : Addr, (x - 0x2000).toNat < 4096 ∨ (x - 0x104).toNat < 4 →
        ¬((x - 0x1000).toNat < 4096 ∨ (x - 0x100).toNat < 4) := by
      intro x
      bv_omega
    intro t u htu
    cases t <;> cases u
    · exact absurd rfl htu
    · exact Set.disjoint_left.mpr fun x hx hx' => hpages x hx' hx
    · exact Set.disjoint_left.mpr fun x hx hx' => hpages x hx hx'
    · exact absurd rfl htu

/-- The first thread, about to call `switch_to(0x100, 0x2000)` to return to `0x80101234`. -/
def firstCpu : X86 where
  eax := 1
  ecx := 2
  edx := 3
  ebx := 4
  esp := 0x1800
  ebp := 0x1810
  esi := 5
  edi := 6
  ds := 0x10
  es := 0x10
  fs := 0x10
  gs := 0x10
  ss := 0x10
  cs := 0x08
  eip := 0x80105678
  eflags := 0x002
  mem := store32 (store32 (store32 (store32 (fun _ => 0) 0x1800 0x80101234) 0x1804 0x100)
    0x1808 0x2000) 0x104 0x2000

/-- The second thread at a call of its own, its context all zero at `0x2000`. -/
def secondCall : X86 :=
  { firstCpu with ebx := 0, esp := 0x2010, ebp := 0, esi := 0, edi := 0, mem := fun _ => 0 }

/-- The second thread, with the arguments for the way back. -/
def secondCpu : X86 :=
  { firstCpu.switchTo with
    ebx := 7
    esp := 0x2800
    mem := store32 (store32 firstCpu.switchTo.mem 0x2804 0x104) 0x2808 0x17f0 }

theorem twoThreads_stack {c : X86} {t : Bool} (h : c.esp.toNat % 4096 + 4 ≤ 4096)
    (h' : 16 ≤ c.esp.toNat % 4096) (ht : c.esp.toNat / 4096 = if t then 2 else 1) :
    contextBytes c ⊆ twoThreads.stack t := by
  intro x (hx : (x - (c.esp - 16)).toNat < 20)
  cases t
  · show (x - 0x1000).toNat < 4096
    simp only [Bool.false_eq_true, if_false] at ht
    bv_omega
  · show (x - 0x2000).toNat < 4096
    simp only [if_true] at ht
    bv_omega

theorem switch_preserves_two :
    let c := secondCpu.switchTo
    c.edi = 6 ∧ c.esi = 5 ∧ c.ebx = 4 ∧ c.ebp = 0x1810 ∧ c.esp = 0x1804 ∧ c.eip = 0x80101234 := by
  let s₀ : Running Bool := ⟨firstCpu, false, fun t => if t then some secondCall else none⟩
  let s₁ : Running Bool := ⟨firstCpu.switchTo, true, s₀.called⟩
  let s₂ : Running Bool := ⟨secondCpu, true, s₀.called⟩
  have h0 : ThreadsOk twoThreads s₀ := by
    intro t ht r hr
    cases t
    · exact absurd rfl ht
    · cases hr
      exact ⟨twoThreads_stack (by decide) (by decide) rfl, by decide +kernel, by decide +kernel⟩
  have hapart : ∀ {c : X86} {a : Addr}, 0x1000 ≤ c.esp.toNat → c.esp.toNat < 0x3000 →
      a.toNat < 0x200 → Disjoint (contextBytes c) (cell a) := by
    intro c a hlo hhi ha
    refine Set.disjoint_left.mpr fun x (hx : (x - (c.esp - 16)).toNat < 20) hx' => ?_
    have hcell : (x - a).toNat < 4 := hx'
    bv_omega
  have hcall : ThreadStep twoThreads s₀ (.switch true) s₁ :=
    .switch true secondCall (twoThreads_stack (c := firstCpu) (t := false) (by decide) (by decide) rfl)
      (hapart (by decide) (by decide) (by decide)) (by decide +kernel) rfl (by decide +kernel)
  have hrun : ThreadStep twoThreads s₁ .run s₂ := by
    refine .run secondCpu fun t ht x hx => ?_
    cases t
    · have hx' : (x - 0x1000).toNat < 4096 ∨ (x - 0x100).toNat < 4 := hx
      show store32 (store32 firstCpu.switchTo.mem 0x2804 0x104) 0x2808 0x17f0 x = _
      rw [store32_outside _ _ _ _ (by bv_omega), store32_outside _ _ _ _ (by bv_omega)]
    · exact absurd rfl ht
  have hback : ThreadStep twoThreads s₂ (.switch false) ⟨secondCpu.switchTo, false, s₂.called⟩ :=
    .switch false firstCpu (twoThreads_stack (c := secondCpu) (t := true) (by decide) (by decide) rfl)
      (hapart (by decide) (by decide) (by decide)) (by decide +kernel) rfl (by decide +kernel)
  have h := switch_preserves twoThreads h0 .nil hcall (by decide) (.single hrun) (by simp) hback
  have heip : load32 firstCpu.mem 0x1800 = 0x80101234 := by decide +kernel
  exact ⟨h.2.1, h.2.2.1, h.2.2.2.1, h.2.2.2.2.1, h.2.2.2.2.2.1, h.2.2.2.2.2.2.trans heip⟩

end TuixOS
