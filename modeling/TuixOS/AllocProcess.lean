import TuixOS.Launch
import TuixOS.Lib.Run

/-!
# Process creation over whole runs

`alloc_process` as it works on the process table, `next_pid` and the page allocator, with the stack
that `config_proc_kstack` makes up. Between the calls the slots in use change in any way that keeps
them in use, and memory and the free list in any way that frees no kernel stack in use.

`TableInv` is what holds between the calls: the processes have different pids, all below `next_pid`,
and different stacks, none of them free. The slot of a call that finds no page has its pid and its
null stack overwritten, but stays unused.
-/

namespace TuixOS

open Lib

/-- `ptable.proc`, `next_pid` and the allocator. -/
structure ProcTable where
  proc : Slot → ProcStack
  nextPid : Int
  kmem : Kmem

namespace ProcTable

/-- The table at boot. -/
def init (k : Kmem) : ProcTable := ⟨fun _ => ⟨0, .unused, 0, 0, 0, 0⟩, 1, k⟩

def allocProcess (forkRetAddr trapRetAddr : Word) (s : ProcTable) :
    Res (Option Slot × ProcTable) :=
  match (List.finRange maxProc).find? fun i => (s.proc i).state = .unused with
  | some i => do
    let (b, r) ←
      Launching.configProcKstack forkRetAddr trapRetAddr ⟨s.proc i, s.nextPid, s.kmem⟩
    return (if b then some i else none, ⟨Function.update s.proc i r.proc, r.nextPid, r.kmem⟩)
  | none => .ok (none, s)

/-- The slot is in use. -/
def Live (s : ProcTable) (i : Slot) : Prop := (s.proc i).state ≠ .unused

inductive Op
  | alloc
  | change (i : Slot)
  | memory
  deriving DecidableEq

/-- The steps of a run. -/
inductive Step (forkRetAddr trapRetAddr : Word) : ProcTable → Op → ProcTable → Prop
  | alloc {s : ProcTable} {r : Option Slot × ProcTable}
      (hrun : s.allocProcess forkRetAddr trapRetAddr = .ok r) :
      Step forkRetAddr trapRetAddr s .alloc r.2
  /-- A process changes, but for its pid and its kernel stack. -/
  | change {s : ProcTable} {i : Slot} {p : ProcStack} (hlive : s.Live i) (hstate : p.state ≠ .unused)
      (hpid : p.pid = (s.proc i).pid) (hkstack : p.kstack = (s.proc i).kstack) :
      Step forkRetAddr trapRetAddr s (.change i) { s with proc := Function.update s.proc i p }
  /-- Pages are taken and freed, also all of them, and written. -/
  | memory {s : ProcTable} {k : Kmem} {l : List Addr} (hl : FreeList k l)
      (hkstack : ∀ i, s.Live i → (s.proc i).kstack ∉ l) :
      Step forkRetAddr trapRetAddr s .memory { s with kmem := k }

/-! ## What a call does -/

/-- The call has returned the slot `i`. -/
structure Allocated (forkRetAddr trapRetAddr : Word) (s : ProcTable) (i : Slot) (s' : ProcTable) :
    Prop where
  unused : (s.proc i).state = .unused
  lowest : ∀ j < i, (s.proc j).state ≠ .unused
  embryo : (s'.proc i).state = .embryo
  pid_pos : 1 ≤ (s'.proc i).pid
  pid_new : ∀ j, j ≠ i → s'.Live j → (s'.proc j).pid ≠ (s'.proc i).pid
  page : PageAligned (s'.proc i).kstack ∧ (s'.proc i).kstack ≠ 0
  taken : ∃ l, FreeList s.kmem ((s'.proc i).kstack :: l) ∧ FreeList s'.kmem l ∧
    (s'.proc i).kstack ∉ l
  kstack_new : ∀ j, j ≠ i → s'.Live j → (s'.proc j).kstack ≠ (s'.proc i).kstack
  /-- From the top: the trap frame, the return address `trap_ret`, the context. -/
  tf : (s'.proc i).tf =
    (s'.proc i).kstack + BitVec.ofNat 32 kstackSize - BitVec.ofNat 32 trapFrameSize
  trapRet : load32 s'.kmem.mem ((s'.proc i).tf - 4) = trapRetAddr
  ctx : (s'.proc i).ctx = (s'.proc i).tf - 4 - BitVec.ofNat 32 contextSize
  zero : ∀ field ∈ [0, 4, 8, 12], load32 s'.kmem.mem ((s'.proc i).ctx + field) = 0
  eip : load32 s'.kmem.mem ((s'.proc i).ctx + 16) = forkRetAddr
  others : ∀ j, j ≠ i → s'.proc j = s.proc j
  frame : ∀ x, pgRoundDown x ≠ (s'.proc i).kstack → s'.kmem.mem x = s.kmem.mem x

/-- The call has returned the null pointer. -/
structure Refused (s s' : ProcTable) : Prop where
  why : (∀ i, s.Live i) ∨ FreeList s.kmem []
  state : ∀ i, (s'.proc i).state = (s.proc i).state
  kmem : s'.kmem = s.kmem

end ProcTable

/-! ## The made-up stack -/

/-- A cleared word. -/
theorem load32_memset {p a : Addr} (h0 : p ≠ 0) {n : Word} (m : Mem)
    (ha : ∀ x, x ∈ cell a → (x - p).toNat < n.toNat) : load32 (memset p 0 n m).2 a = 0 := by
  have hzero : load32 (memset p 0 n m).2 a = load32 (fun _ => 0) a :=
    load32_of_cell fun x hx => by
      rw [memset_apply h0, if_pos (ha x hx)]
      rfl
  exact hzero.trans word32_zero

namespace Launching
variable {forkRetAddr trapRetAddr : Word} {s s' : Launching}

/-- The registers of the context other than `eip`. -/
theorem configProcKstack_zero (h : configProcKstack forkRetAddr trapRetAddr s = .ok (true, s'))
    (hpage : PageAligned s'.proc.kstack) {field : Addr} (hfield : field.toNat + 4 ≤ 16) :
    load32 s'.kmem.mem (s'.proc.ctx + field) = 0 := by
  obtain ⟨-, -, hctx, hmem⟩ := configProcKstack_ok h
  generalize s'.proc.kstack = k at hpage hctx hmem
  have hne : k + 3996 ≠ 0 := by
    unfold PageAligned at hpage
    bv_omega
  rw [hmem, hctx, load32_store32_ne _ _ _ _ (by bv_omega) (by bv_omega)]
  apply load32_memset hne
  intro x hx
  have hx' : (x - (k + 3996 + field)).toNat < 4 := hx
  show (x - (k + 3996)).toNat < 20
  bv_omega

variable {l : List Addr}

/-- Without a page the process is unused again. -/
theorem configProcKstack_null (hnext : s.nextPid ≠ intMax) (hl : FreeList s.kmem []) : ∃ s',
    configProcKstack forkRetAddr trapRetAddr s = .ok (false, s') ∧ s'.proc.state = .unused ∧
      s'.nextPid = s.nextPid + 1 ∧ s'.kmem = s.kmem := by
  simp only [configProcKstack, hl.kalloc_nil]
  rw [if_neg hnext, if_pos trivial]
  exact ⟨_, rfl, rfl, rfl, rfl⟩

/-- The first free page becomes the stack and leaves the list. -/
theorem configProcKstack_page {k : Addr} (hnext : s.nextPid ≠ intMax)
    (hl : FreeList s.kmem (k :: l)) : ∃ s',
    configProcKstack forkRetAddr trapRetAddr s = .ok (true, s') ∧ s'.proc.state = .embryo ∧
      s'.proc.pid = s.nextPid ∧ s'.proc.kstack = k ∧ s'.nextPid = s.nextPid + 1 ∧
      FreeList s'.kmem l := by
  have hpage := hl.aligned k List.mem_cons_self
  have h0 : k ≠ 0 := hl.ne_zero List.mem_cons_self
  have hnot : k ∉ l := (List.nodup_cons.mp hl.nodup).1
  obtain ⟨s', hrun, hstate, hpid, hkstack, hnext', hhead⟩ : ∃ s',
      configProcKstack forkRetAddr trapRetAddr s = .ok (true, s') ∧ s'.proc.state = .embryo ∧
        s'.proc.pid = s.nextPid ∧ s'.proc.kstack = k ∧ s'.nextPid = s.nextPid + 1 ∧
        s'.kmem.freelist = runNext s.kmem.mem k := by
    simp only [configProcKstack, hl.kalloc_cons]
    rw [if_neg hnext, if_neg h0]
    exact ⟨_, rfl, rfl, rfl, rfl, rfl, rfl⟩
  refine ⟨s', hrun, hstate, hpid, hkstack, hnext', ?_⟩
  have hout : SameOutside k s.kmem.mem s'.kmem.mem := by
    intro x hx
    refine configProcKstack_outside hrun (hkstack ▸ hpage) fun hin => hx ?_
    have hin' : (x - s'.proc.kstack).toNat < 4096 := hin
    rw [hkstack] at hin'
    exact (pgRoundDown_eq_iff hpage).mpr hin'
  have hfree := hl.tail.write hout hnot
  rwa [← hhead] at hfree

end Launching

namespace ProcTable
variable {forkRetAddr trapRetAddr : Word} {s s' : ProcTable}

/-- The search stops at the lowest unused slot. -/
theorem find_unused {i : Slot}
    (h : ((List.finRange maxProc).find? fun i => (s.proc i).state = .unused) = some i) :
    (s.proc i).state = .unused ∧ ∀ j < i, s.Live j := by
  obtain ⟨hi, before, after, hsplit, hbefore⟩ := List.find?_eq_some_iff_append.mp h
  refine ⟨by simpa using hi, fun j hj => ?_⟩
  have hmem : j ∈ before ++ i :: after := hsplit ▸ List.mem_finRange j
  have hsorted : (before ++ i :: after).Pairwise (· < ·) :=
    hsplit ▸ List.pairwise_lt_finRange maxProc
  rcases List.mem_append.mp hmem with hj' | hj'
  · simpa [Live] using hbefore j hj'
  · -- not at or behind `i`
    have hafter := (List.pairwise_cons.mp (List.pairwise_append.mp hsorted).2.1).1
    rcases List.mem_cons.mp hj' with rfl | hj''
    · exact absurd hj (lt_irrefl _)
    · exact absurd (hafter j hj'') (lt_asymm hj)

theorem find_none (h : ((List.finRange maxProc).find? fun i => (s.proc i).state = .unused) = none)
    (i : Slot) : s.Live i := by
  have hi := List.find?_eq_none.mp h i (List.mem_finRange i)
  simpa [Live] using hi

/-! ## The invariant -/

structure TableInv (s : ProcTable) : Prop where
  free : ∃ l, FreeList s.kmem l ∧ ∀ i, s.Live i → (s.proc i).kstack ∉ l
  next : 1 ≤ s.nextPid
  pid : ∀ i, s.Live i → 1 ≤ (s.proc i).pid ∧ (s.proc i).pid < s.nextPid
  pid_inj : ∀ i j, s.Live i → s.Live j → (s.proc i).pid = (s.proc j).pid → i = j
  kstack_inj : ∀ i j, s.Live i → s.Live j → (s.proc i).kstack = (s.proc j).kstack → i = j

theorem tableInv_init {k : Kmem} {l : List Addr} (hl : FreeList k l) : TableInv (init k) where
  free := ⟨l, hl, fun _ hlive => absurd rfl hlive⟩
  next := le_refl _
  pid _ hlive := absurd rfl hlive
  pid_inj _ _ hlive := absurd rfl hlive
  kstack_inj _ _ hlive := absurd rfl hlive

/-- Whatever keeps the pids and stacks of the slots in use and frees none of the stacks. -/
theorem TableInv.keep (h : TableInv s) (hnext : s.nextPid ≤ s'.nextPid)
    (hlive : ∀ j, s'.Live j → s.Live j ∧ (s'.proc j).pid = (s.proc j).pid ∧
      (s'.proc j).kstack = (s.proc j).kstack)
    (hfree : ∃ l, FreeList s'.kmem l ∧ ∀ j, s.Live j → (s.proc j).kstack ∉ l) : TableInv s' where
  free := by
    obtain ⟨l, hl, hstack⟩ := hfree
    refine ⟨l, hl, fun j hj => ?_⟩
    obtain ⟨hj', -, hk⟩ := hlive j hj
    rw [hk]
    exact hstack j hj'
  next := h.next.trans hnext
  pid j hj := by
    obtain ⟨hj', hp, -⟩ := hlive j hj
    obtain ⟨hlo, hhi⟩ := h.pid j hj'
    rw [hp]
    exact ⟨hlo, lt_of_lt_of_le hhi hnext⟩
  pid_inj a b ha hb heq := by
    obtain ⟨ha', hpa, -⟩ := hlive a ha
    obtain ⟨hb', hpb, -⟩ := hlive b hb
    exact h.pid_inj a b ha' hb' (hpa.symm.trans (heq.trans hpb))
  kstack_inj a b ha hb heq := by
    obtain ⟨ha', -, hka⟩ := hlive a ha
    obtain ⟨hb', -, hkb⟩ := hlive b hb
    exact h.kstack_inj a b ha' hb' (hka.symm.trans (heq.trans hkb))

/-- A slot whose value of `f` is different from those of the others in use. -/
theorem inj_of_new {β : Type} {f : ProcStack → β} {i : Slot}
    (hother : ∀ j, j ≠ i → s'.proc j = s.proc j)
    (hinj : ∀ a b, s.Live a → s.Live b → f (s.proc a) = f (s.proc b) → a = b)
    (hnew : ∀ j, s.Live j → f (s.proc j) ≠ f (s'.proc i)) (a b : Slot) (ha : s'.Live a)
    (hb : s'.Live b) (heq : f (s'.proc a) = f (s'.proc b)) : a = b := by
  have hlive : ∀ j, j ≠ i → s'.Live j → s.Live j := fun j hj hl => by
    rwa [Live, hother j hj] at hl
  by_cases hai : a = i
  · by_cases hbi : b = i
    · rw [hai, hbi]
    · rw [hai, hother b hbi] at heq
      exact absurd heq.symm (hnew b (hlive b hbi hb))
  · by_cases hbi : b = i
    · rw [hbi, hother a hai] at heq
      exact absurd heq (hnew a (hlive a hai ha))
    · rw [hother a hai, hother b hbi] at heq
      exact hinj a b (hlive a hai ha) (hlive b hbi hb) heq

/-- The slot `i` gets the next pid and a page from the free list. -/
theorem TableInv.take (h : TableInv s) {i : Slot} {l : List Addr}
    (hother : ∀ j, j ≠ i → s'.proc j = s.proc j) (hpid : (s'.proc i).pid = s.nextPid)
    (hnext : s'.nextPid = s.nextPid + 1) (hl : FreeList s.kmem ((s'.proc i).kstack :: l))
    (hl' : FreeList s'.kmem l) : TableInv s' := by
  obtain ⟨l₀, hl₀, hstack⟩ := h.free
  obtain rfl := hl₀.unique hl
  have hpos := h.next
  have hnot : (s'.proc i).kstack ∉ l := (List.nodup_cons.mp hl.nodup).1
  refine ⟨⟨l, hl', fun j hj => ?_⟩, by omega, fun j hj => ?_,
    inj_of_new hother h.pid_inj fun j hj => ?_,
    inj_of_new hother h.kstack_inj fun j hj he => ?_⟩
  · by_cases hji : j = i
    · rw [hji]
      exact hnot
    · rw [Live, hother j hji] at hj
      rw [hother j hji]
      exact fun hmem => hstack j hj (List.mem_cons_of_mem _ hmem)
  · by_cases hji : j = i
    · rw [hji]
      omega
    · rw [Live, hother j hji] at hj
      have hold := h.pid j hj
      rw [hother j hji]
      omega
  · rw [hpid]
    exact ne_of_lt (h.pid j hj).2
  · exact hstack j hj (he ▸ List.mem_cons_self)

/-! ## One call -/

/-- Where `config_proc_kstack` puts the parts of the stack. -/
theorem layout {s s' : Launching}
    (h : Launching.configProcKstack forkRetAddr trapRetAddr s = .ok (true, s')) :
    s'.proc.tf = s'.proc.kstack + BitVec.ofNat 32 kstackSize - BitVec.ofNat 32 trapFrameSize ∧
      s'.proc.ctx = s'.proc.tf - 4 - BitVec.ofNat 32 contextSize ∧
      s'.proc.tf - 4 = s'.proc.ctx + 20 := by
  obtain ⟨-, htf, hctx, -⟩ := Launching.configProcKstack_ok h
  rw [htf, hctx]
  unfold kstackSize trapFrameSize contextSize
  exact ⟨by bv_omega, by bv_omega, by bv_omega⟩

/-- A call that finds the slot `i`, which changes nothing but this slot. -/
theorem allocProcess_some {i : Slot} {b : Bool} {r : Launching}
    (hfind : ((List.finRange maxProc).find? fun i => (s.proc i).state = .unused) = some i)
    (hrun : Launching.configProcKstack forkRetAddr trapRetAddr ⟨s.proc i, s.nextPid, s.kmem⟩ =
      .ok (b, r)) : ∃ s', s.allocProcess forkRetAddr trapRetAddr =
        .ok (if b then some i else none, s') ∧ s'.proc i = r.proc ∧
      (∀ j, j ≠ i → s'.proc j = s.proc j) ∧ s'.nextPid = r.nextPid ∧ s'.kmem = r.kmem := by
  refine ⟨⟨Function.update s.proc i r.proc, r.nextPid, r.kmem⟩, ?_,
    Function.update_self i r.proc s.proc, fun j hj => Function.update_of_ne hj r.proc s.proc,
    rfl, rfl⟩
  rw [ProcTable.allocProcess, hfind]
  simp only [hrun]
  rfl

/-- No page: the slot is given back. -/
theorem TableInv.allocNull (h : TableInv s) (hmax : s.nextPid ≠ intMax) (hl : FreeList s.kmem [])
    {i : Slot}
    (hfind : ((List.finRange maxProc).find? fun i => (s.proc i).state = .unused) = some i) :
    ∃ s', s.allocProcess forkRetAddr trapRetAddr = .ok (none, s') ∧ TableInv s' ∧
      s'.nextPid = s.nextPid + 1 ∧ Refused s s' := by
  obtain ⟨hunused, -⟩ := find_unused hfind
  obtain ⟨r, hrun, hstate, hnext, hkmem⟩ :=
    Launching.configProcKstack_null (s := ⟨s.proc i, s.nextPid, s.kmem⟩) hmax hl
  obtain ⟨s', hcall, hself, hother, hnext', hkmem'⟩ := allocProcess_some hfind hrun
  have hk : s'.kmem = s.kmem := hkmem'.trans hkmem
  have hn : s'.nextPid = s.nextPid + 1 := hnext'.trans hnext
  have hne : ∀ j, s'.Live j → j ≠ i := by
    rintro j hj rfl
    exact hj (hself ▸ hstate)
  refine ⟨s', hcall, h.keep (by omega) (fun j hj => ?_) ⟨[], hk ▸ hl, fun _ _ => List.not_mem_nil⟩,
    hn, Or.inr hl, fun j => ?_, hk⟩
  · have hsame := hother j (hne j hj)
    rw [Live, hsame] at hj
    exact ⟨hj, by rw [hsame], by rw [hsame]⟩
  · by_cases hji : j = i
    · rw [hji, hself, hstate, hunused]
    · rw [hother j hji]

/-- The first free page becomes the stack of the lowest unused slot. -/
theorem TableInv.allocPage (h : TableInv s) (hmax : s.nextPid ≠ intMax) {k : Addr} {l : List Addr}
    (hl : FreeList s.kmem (k :: l)) {i : Slot}
    (hfind : ((List.finRange maxProc).find? fun i => (s.proc i).state = .unused) = some i) :
    ∃ s', s.allocProcess forkRetAddr trapRetAddr = .ok (some i, s') ∧ TableInv s' ∧
      s'.nextPid = s.nextPid + 1 ∧ Allocated forkRetAddr trapRetAddr s i s' := by
  obtain ⟨hunused, hlowest⟩ := find_unused hfind
  obtain ⟨r, hrun, hstate, hpid, hkstack, hnext, hfree⟩ :=
    Launching.configProcKstack_page (s := ⟨s.proc i, s.nextPid, s.kmem⟩) hmax hl
  obtain ⟨s', hcall, hself, hother, hnext', hkmem⟩ := allocProcess_some hfind hrun
  have hpage : PageAligned r.proc.kstack := hkstack ▸ hl.aligned k List.mem_cons_self
  obtain ⟨htf, hctx, hword⟩ := layout hrun
  obtain ⟨heip, htrap⟩ := Launching.configProcKstack_stack hrun hpage
  have hzero : ∀ field : Addr, field.toNat + 4 ≤ 16 →
      load32 r.kmem.mem (r.proc.ctx + field) = 0 := fun _ =>
    Launching.configProcKstack_zero hrun hpage
  rw [← hself] at hstate hpid hkstack hpage htf hctx hword heip htrap hzero
  rw [← hkmem] at hfree heip htrap hzero
  have hl' : FreeList s.kmem ((s'.proc i).kstack :: l) := hkstack ▸ hl
  have hn : s'.nextPid = s.nextPid + 1 := hnext'.trans hnext
  have hinv : TableInv s' := h.take hother hpid hn hl' hfree
  have hlive : s'.Live i := by
    rw [Live, hstate]
    decide
  refine ⟨s', hcall, hinv, hn, hunused, hlowest, hstate, (hinv.pid i hlive).1,
    fun j hj hlj he => hj (hinv.pid_inj j i hlj hlive he),
    ⟨hpage, hl'.ne_zero List.mem_cons_self⟩,
    ⟨l, hl', hfree, (List.nodup_cons.mp hl'.nodup).1⟩,
    fun j hj hlj he => hj (hinv.kstack_inj j i hlj hlive he), htf, ?_, hctx, ?_, heip, hother,
    fun x hx => ?_⟩
  · rw [hword, htrap]
  · simp only [List.forall_mem_cons, List.not_mem_nil, false_imp_iff, implies_true, and_true]
    exact ⟨hzero 0 (by decide), hzero 4 (by decide), hzero 8 (by decide), hzero 12 (by decide)⟩
  · rw [hkmem]
    refine Launching.configProcKstack_outside hrun (hself ▸ hpage) fun hin => hx ?_
    exact (pgRoundDown_eq_iff hpage).mpr (hself ▸ hin)

/-- The call returns, with a slot or with the null pointer. -/
theorem TableInv.allocProcess (h : TableInv s) (hmax : s.nextPid ≠ intMax)
    (forkRetAddr trapRetAddr : Word) : ∃ r s',
    s.allocProcess forkRetAddr trapRetAddr = .ok (r, s') ∧ TableInv s' ∧
      s'.nextPid ≤ s.nextPid + 1 ∧
      (∀ i, r = some i → Allocated forkRetAddr trapRetAddr s i s') ∧
      (r = none → Refused s s') := by
  cases hfind : (List.finRange maxProc).find? fun i => (s.proc i).state = .unused with
  | none =>
    have hrun : s.allocProcess forkRetAddr trapRetAddr = .ok (none, s) := by
      rw [ProcTable.allocProcess, hfind]
    refine ⟨none, s, hrun, h, by omega, by simp, fun _ => ?_⟩
    exact ⟨Or.inl (find_none hfind), fun _ => rfl, rfl⟩
  | some i =>
    obtain ⟨l, hl, -⟩ := h.free
    cases l with
    | nil =>
      obtain ⟨s', hrun, hinv, hnext, href⟩ := h.allocNull hmax hl hfind
      exact ⟨none, s', hrun, hinv, le_of_eq hnext, by simp, fun _ => href⟩
    | cons k l =>
      obtain ⟨s', hrun, hinv, hnext, hall⟩ := h.allocPage hmax hl hfind
      refine ⟨some i, s', hrun, hinv, le_of_eq hnext, fun j hj => ?_, by simp⟩
      obtain rfl := Option.some.inj hj
      exact hall

/-! ## Runs -/

theorem tableInv_step {op : Op} (h : TableInv s) (hstep : Step forkRetAddr trapRetAddr s op s') :
    TableInv s' ∧ s'.nextPid ≤ s.nextPid + [op].count .alloc := by
  cases hstep with
  | alloc hrun =>
    by_cases hmax : s.nextPid = intMax
    · -- no slot was looked at, or the increment would have overflowed
      unfold ProcTable.allocProcess at hrun
      cases hfind : (List.finRange maxProc).find? fun i => (s.proc i).state = .unused with
      | none =>
        rw [hfind] at hrun
        cases hrun
        exact ⟨h, by simp⟩
      | some i =>
        rw [hfind] at hrun
        simp only [Launching.configProcKstack, if_pos hmax] at hrun
        cases hrun
    · obtain ⟨r', s', hrun', hinv, hnext, -⟩ := h.allocProcess hmax forkRetAddr trapRetAddr
      rw [hrun'] at hrun
      cases hrun
      exact ⟨hinv, hnext⟩
  | @change i p hlive hstate hpid hkstack =>
    refine ⟨h.keep (le_refl _) (fun j hj => ?_) h.free, by simp⟩
    by_cases hji : j = i
    · subst hji
      simp only [Function.update_self]
      exact ⟨hlive, hpid, hkstack⟩
    · simp only [Live, Function.update_of_ne hji] at hj ⊢
      exact ⟨hj, trivial, trivial⟩
  | memory hl hstack =>
    exact ⟨h.keep (le_refl _) (fun j hj => ⟨hj, rfl, rfl⟩) ⟨_, hl, hstack⟩, by simp⟩

theorem tableInv_run {k : Kmem} {l : List Addr} {ops : List Op} (hl : FreeList k l)
    (hrun : Run (Step forkRetAddr trapRetAddr) (init k) ops s) :
    TableInv s ∧ s.nextPid ≤ 1 + ops.count .alloc := by
  have hfirst : (init k).nextPid = 1 := rfl
  have hall := hrun.invariant (I := fun ops s => TableInv s ∧ s.nextPid ≤ 1 + ops.count .alloc)
    ⟨tableInv_init hl, by simp [hfirst]⟩ fun ops op t t' ht hstep => by
      obtain ⟨hinv, hnext⟩ := tableInv_step ht.1 hstep
      have hcount := ht.2
      refine ⟨hinv, ?_⟩
      rw [List.count_append]
      push_cast
      omega
  exact hall

/-- **`alloc_process` over whole runs.** After fewer than `2^31 - 2` calls, with pages taken, freed
and missing in any pattern between them, the next call returns. With a slot, it has taken the lowest
unused one, a new pid and a stack that nobody else has, and has laid out the stack; with the null
pointer, no slot or no page was left, and no state and no page has changed. -/
theorem alloc_process_run {k : Kmem} {l : List Addr} {ops : List Op} (hl : FreeList k l)
    (hrun : Run (Step forkRetAddr trapRetAddr) (init k) ops s)
    (hcalls : ops.count .alloc + 1 < 2 ^ 31 - 1) :
    ∃ r s', s.allocProcess forkRetAddr trapRetAddr = .ok (r, s') ∧
      (∀ i, r = some i → Allocated forkRetAddr trapRetAddr s i s') ∧
      (r = none → Refused s s') := by
  obtain ⟨hinv, hnext⟩ := tableInv_run hl hrun
  have hmax : s.nextPid ≠ intMax := by
    intro he
    rw [he] at hnext
    have hlt : (intMax : Int) = 2 ^ 31 - 1 := rfl
    omega
  obtain ⟨r, s', hcall, -, -, hsome, hnone⟩ := hinv.allocProcess hmax forkRetAddr trapRetAddr
  exact ⟨r, s', hcall, hsome, hnone⟩

/-- One free page: the first call gets the first slot, the second call nothing. -/
theorem alloc_process_run_two : ∃ s₁ s₂ s₃,
    (init ⟨fun _ => 0, 0x80400000⟩).allocProcess 0x80101000 0x80102000 = .ok (some 0, s₁) ∧
      Allocated 0x80101000 0x80102000 (init ⟨fun _ => 0, 0x80400000⟩) 0 s₁ ∧
      Run (Step 0x80101000 0x80102000) (init ⟨fun _ => 0, 0x80400000⟩) [.alloc, .memory] s₂ ∧
      s₂.allocProcess 0x80101000 0x80102000 = .ok (none, s₃) ∧ Refused s₂ s₃ := by
  have hl : FreeList ⟨fun _ => 0, 0x80400000⟩ [0x80400000] :=
    ⟨⟨rfl, by decide, rfl⟩, by simp [PageAligned]⟩
  have hl' : FreeList ⟨fun _ => 0, 0⟩ [] := ⟨rfl, by simp⟩
  have hstart : Run (Step 0x80101000 0x80102000) (init ⟨fun _ => 0, 0x80400000⟩) [] _ := Run.nil
  obtain ⟨r, s₁, hcall, hsome, hnone⟩ := alloc_process_run hl hstart (by decide)
  have hslot : r = some 0 := by
    cases r with
    | none =>
      rcases (hnone rfl).why with hlive | hempty
      · exact absurd rfl (hlive 0)
      · exact absurd (hl.unique hempty) (List.cons_ne_nil _ _)
    | some i =>
      by_contra hne
      have hpos : 0 < i := Fin.pos_of_ne_zero fun he => hne (congrArg some he)
      exact (hsome i rfl).lowest 0 hpos rfl
  subst hslot
  have hrun := (Run.single (Step.alloc hcall)).snoc
    (Step.memory hl' fun _ _ => List.not_mem_nil)
  obtain ⟨r, s₃, hcall', hsome', hnone'⟩ := alloc_process_run hl hrun (by decide)
  cases r with
  | none => exact ⟨s₁, _, s₃, hcall, hsome 0 rfl, hrun, hcall', hnone' rfl⟩
  | some i =>
    obtain ⟨l, htaken, -⟩ := (hsome' i rfl).taken
    exact absurd (hl'.unique htaken) (List.cons_ne_nil _ _).symm

end ProcTable

end TuixOS
