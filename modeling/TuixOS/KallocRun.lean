import TuixOS.Kalloc
import TuixOS.Lib.Run
import Mathlib.Data.Set.Insert

/-!
# The page allocator over whole runs

A run of the allocator is any sequence of `free_range` calls (each a call, one step for every
`kfree` its loop makes, and a return), `kalloc`, `kfree` of a handed-out page and byte writes of
clients into handed-out pages. Two ghost sets say what the allocator is for: the pages it manages
and those handed out. `AllocInv` ties them to memory: the chain of links in memory visits exactly
the managed pages that are not handed out.

`free_range` compares `p + PGSIZE` with the end of the range, so it needs a range that stays below
the last page of the address space (`BelowTop`): above it the sum wraps around and the loop frees
page 0 (`freeRange_top_loses_pages`).
-/

namespace TuixOS

open Lib

structure AllocState where
  kmem : Kmem
  /-- The pages given to the allocator so far. -/
  managed : Set Addr
  /-- The pages handed out by `kalloc`. -/
  out : Set Addr
  /-- `p` and `vend` of the `free_range` call in progress. -/
  call : Option (Addr × Addr)

/-- Before the first call, over any memory. -/
def AllocState.init (m : Mem) : AllocState := ⟨⟨m, 0⟩, ∅, ∅, none⟩

inductive AllocOp
  | freeRange (vstart vend : Addr)
  | kfreeNext
  | freeRangeEnd
  | kalloc
  | kfree (p : Addr)
  | write (a : Addr) (b : Byte)

/-- The whole pages of the range from `vstart` to `vend`. -/
def InRange (vstart vend p : Addr) : Prop :=
  PageAligned p ∧ vstart.toNat ≤ p.toNat ∧ p.toNat + 4096 ≤ vend.toNat

/-- A range that overlaps no managed page and does not contain page 0. -/
def RangeFresh (managed : Set Addr) (vstart vend : Addr) : Prop :=
  vstart.toNat ≤ vend.toNat ∧ ∀ p, InRange vstart vend p → p ≠ 0 ∧ p ∉ managed

/-- The steps of a run, for the `free_range` calls that `limit` admits. -/
inductive AllocStep (limit : Addr → Addr → Prop) : AllocState → AllocOp → AllocState → Prop
  | freeRange {s : AllocState} {vstart vend : Addr} (hcall : s.call = none)
      (hfresh : RangeFresh s.managed vstart vend) (hlimit : limit vstart vend) :
      AllocStep limit s (.freeRange vstart vend) { s with call := some (pgRoundUp vstart, vend) }
  | kfreeNext {s : AllocState} {p vend : Addr} (hcall : s.call = some (p, vend))
      (hloop : p + pgSize ≤ vend) :
      AllocStep limit s .kfreeNext
        { s with kmem := kfree p s.kmem, managed := insert p s.managed,
                 call := some (p + pgSize, vend) }
  | freeRangeEnd {s : AllocState} {p vend : Addr} (hcall : s.call = some (p, vend))
      (hloop : ¬p + pgSize ≤ vend) : AllocStep limit s .freeRangeEnd { s with call := none }
  | kallocNull {s : AllocState} (hcall : s.call = none) (hnull : (kalloc s.kmem).1 = 0) :
      AllocStep limit s .kalloc { s with kmem := (kalloc s.kmem).2 }
  | kalloc {s : AllocState} (hcall : s.call = none) (hpage : (kalloc s.kmem).1 ≠ 0) :
      AllocStep limit s .kalloc
        { s with kmem := (kalloc s.kmem).2, out := insert (kalloc s.kmem).1 s.out }
  | kfree {s : AllocState} {p : Addr} (hcall : s.call = none) (hout : p ∈ s.out) :
      AllocStep limit s (.kfree p) { s with kmem := kfree p s.kmem, out := s.out \ {p} }
  | write {s : AllocState} {a : Addr} {b : Byte} (hcall : s.call = none)
      (hout : pgRoundDown a ∈ s.out) :
      AllocStep limit s (.write a b)
        { s with kmem := { s.kmem with mem := store8 s.kmem.mem a b } }

/-- The range ends below the last page of the address space and starts no later than the page
before it. -/
def BelowTop (vstart vend : Addr) : Prop :=
  vstart.toNat ≤ 0xFFFFE000 ∧ vend.toNat < 0xFFFFF000

/-! ## The invariant -/

structure AllocInv (s : AllocState) : Prop where
  free : ∃ l, FreeList s.kmem l ∧ ∀ p, p ∈ l ↔ p ∈ s.managed ∧ p ∉ s.out
  page : ∀ p ∈ s.managed, PageAligned p ∧ p ≠ 0
  out : s.out ⊆ s.managed
  /-- The rest of the range being freed is fresh, and `p` has not wrapped around. -/
  call : ∀ p vend, s.call = some (p, vend) → PageAligned p ∧ p.toNat ≤ 0xFFFFE000 ∧
    vend.toNat < 0xFFFFF000 ∧ ∀ q, InRange p vend q → q ≠ 0 ∧ q ∉ s.managed

theorem allocInv_init (m : Mem) : AllocInv (AllocState.init m) where
  free := ⟨[], ⟨rfl, by simp⟩, by simp [AllocState.init]⟩
  page := by simp [AllocState.init]
  out := Set.Subset.refl _
  call := by simp [AllocState.init]

/-- The loop test, for a page that has not wrapped around. -/
theorem loop_test {p vend : Addr} (hp : p.toNat ≤ 0xFFFFE000) :
    p + pgSize ≤ vend ↔ p.toNat + 4096 ≤ vend.toNat := by
  have h : (p + pgSize).toNat = p.toNat + 4096 := by
    rw [BitVec.toNat_add, pgSize_toNat]
    omega
  rw [BitVec.le_def, h]

theorem AllocInv.freeRange {s : AllocState} (h : AllocInv s) {vstart vend : Addr}
    (hfresh : RangeFresh s.managed vstart vend) (hlimit : BelowTop vstart vend) :
    AllocInv { s with call := some (pgRoundUp vstart, vend) } := by
  refine ⟨h.free, h.page, h.out, ?_⟩
  rintro p e heq
  obtain ⟨rfl, rfl⟩ := Prod.mk.inj (Option.some.inj heq)
  obtain ⟨hstart, hend⟩ := hlimit
  have hup := pgRoundUp_toNat vstart
  refine ⟨pageAligned_pgRoundUp vstart, by omega, hend, fun q hq => hfresh.2 q ?_⟩
  exact ⟨hq.1, by have := hq.2.1; omega, hq.2.2⟩

theorem AllocInv.kfreeNext {s : AllocState} (h : AllocInv s) {p vend : Addr}
    (hcall : s.call = some (p, vend)) (hloop : p + pgSize ≤ vend) :
    AllocInv { s with kmem := TuixOS.kfree p s.kmem, managed := insert p s.managed,
                      call := some (p + pgSize, vend) } := by
  obtain ⟨hal, hp, hvend, hrest⟩ := h.call p vend hcall
  rw [loop_test hp] at hloop
  obtain ⟨h0, hfresh⟩ := hrest p ⟨hal, le_refl _, hloop⟩
  obtain ⟨l, hl, hmem⟩ := h.free
  have hout : p ∉ s.out := fun ho => hfresh (h.out ho)
  refine ⟨⟨p :: l, hl.kfree hal h0 fun hpl => hfresh ((hmem p).mp hpl).1, fun q => ?_⟩, ?_, ?_, ?_⟩
  · rw [List.mem_cons, hmem, Set.mem_insert_iff]
    constructor
    · rintro (rfl | ⟨hm, ho⟩)
      · exact ⟨Or.inl rfl, hout⟩
      · exact ⟨Or.inr hm, ho⟩
    · rintro ⟨rfl | hm, ho⟩
      · exact Or.inl rfl
      · exact Or.inr ⟨hm, ho⟩
  · rintro q (rfl | hq)
    · exact ⟨hal, h0⟩
    · exact h.page q hq
  · exact fun q hq => Or.inr (h.out hq)
  · rintro p' e heq
    obtain ⟨rfl, rfl⟩ := Prod.mk.inj (Option.some.inj heq)
    have hnext : (p + pgSize).toNat = p.toNat + 4096 := by
      rw [BitVec.toNat_add, pgSize_toNat]
      omega
    have hal' := hal.add_pgSize
    refine ⟨hal', ?_, hvend, fun q hq => ?_⟩
    · unfold PageAligned at hal'
      omega
    · obtain ⟨hqal, hlo, hhi⟩ := hq
      obtain ⟨hq0, hqm⟩ := hrest q ⟨hqal, by omega, hhi⟩
      refine ⟨hq0, ?_⟩
      rintro (rfl | hm)
      · omega
      · exact hqm hm

theorem AllocInv.kallocSome {s : AllocState} (h : AllocInv s) (hcall : s.call = none)
    (hpage : (TuixOS.kalloc s.kmem).1 ≠ 0) :
    AllocInv { s with kmem := (TuixOS.kalloc s.kmem).2,
                      out := insert (TuixOS.kalloc s.kmem).1 s.out } := by
  obtain ⟨l, hl, hmem⟩ := h.free
  cases l with
  | nil => exact absurd (hl.kalloc_zero.mpr rfl) hpage
  | cons p l =>
    rw [hl.kalloc_cons]
    have hp := (hmem p).mp List.mem_cons_self
    have hnot : p ∉ l := (List.nodup_cons.mp hl.nodup).1
    refine ⟨⟨l, hl.tail, fun q => ?_⟩, h.page, ?_, ?_⟩
    · have hq := hmem q
      rw [List.mem_cons] at hq
      rw [Set.mem_insert_iff, not_or]
      constructor
      · intro hql
        obtain ⟨hm, ho⟩ := hq.mp (Or.inr hql)
        refine ⟨hm, ?_, ho⟩
        rintro rfl
        exact hnot hql
      · rintro ⟨hm, hne, ho⟩
        exact (hq.mpr ⟨hm, ho⟩).resolve_left hne
    · rintro q (rfl | hq)
      · exact hp.1
      · exact h.out hq
    · intro p' e heq
      rw [hcall] at heq
      cases heq

theorem AllocInv.kfree {s : AllocState} (h : AllocInv s) (hcall : s.call = none) {p : Addr}
    (hp : p ∈ s.out) : AllocInv { s with kmem := TuixOS.kfree p s.kmem, out := s.out \ {p} } := by
  obtain ⟨l, hl, hmem⟩ := h.free
  obtain ⟨hal, h0⟩ := h.page p (h.out hp)
  have hnot : p ∉ l := fun hpl => ((hmem p).mp hpl).2 hp
  refine ⟨⟨p :: l, hl.kfree hal h0 hnot, fun q => ?_⟩, h.page, ?_, ?_⟩
  · rw [List.mem_cons, hmem, Set.mem_sdiff, Set.mem_singleton_iff]
    constructor
    · rintro (rfl | ⟨hm, ho⟩)
      · exact ⟨h.out hp, fun hn => hn.2 rfl⟩
      · exact ⟨hm, fun hn => ho hn.1⟩
    · rintro ⟨hm, ho⟩
      by_cases hq : q = p
      · exact Or.inl hq
      · exact Or.inr ⟨hm, fun hn => ho ⟨hn, hq⟩⟩
  · exact fun q hq => h.out hq.1
  · intro p' e heq
    rw [hcall] at heq
    cases heq

theorem AllocInv.write {s : AllocState} (h : AllocInv s) {a : Addr} (b : Byte)
    (hout : pgRoundDown a ∈ s.out) :
    AllocInv { s with kmem := { s.kmem with mem := store8 s.kmem.mem a b } } := by
  obtain ⟨l, hl, hmem⟩ := h.free
  refine ⟨⟨l, hl.write (sameOutside_store8 _ b rfl) ?_, hmem⟩, h.page, h.out, h.call⟩
  exact fun hpl => ((hmem _).mp hpl).2 hout

theorem allocInv_step {s s' : AllocState} {op : AllocOp} (h : AllocInv s)
    (hstep : AllocStep BelowTop s op s') : AllocInv s' := by
  cases hstep with
  | freeRange hcall hfresh hlimit => exact h.freeRange hfresh hlimit
  | kfreeNext hcall hloop => exact h.kfreeNext hcall hloop
  | freeRangeEnd hcall hloop => exact ⟨h.free, h.page, h.out, by simp⟩
  | kallocNull hcall hnull =>
    obtain ⟨l, hl, hmem⟩ := h.free
    have hnil := hl.kalloc_zero.mp hnull
    subst hnil
    rw [hl.kalloc_nil]
    exact h
  | kalloc hcall hpage => exact h.kallocSome hcall hpage
  | kfree hcall hout => exact h.kfree hcall hout
  | write hcall hout => exact h.write _ hout

theorem allocInv_run {m : Mem} {ops : List AllocOp} {s : AllocState}
    (h : Run (AllocStep BelowTop) (AllocState.init m) ops s) : AllocInv s :=
  h.state_invariant (allocInv_init m) fun _ _ _ => allocInv_step

/-! ## `free_range` returns -/

/-- The loop returns, and its `kfree` calls are the steps of a run. -/
theorem freeRangeLoop_run : ∀ (n : Nat) (s : AllocState) (p vend : Addr),
    s.call = some (p, vend) → p.toNat ≤ 0xFFFFE000 → PageAligned p → vend.toNat < 0xFFFFF000 →
    vend.toNat < p.toNat + (n + 1) * 4096 →
    ∃ k ops s', freeRangeLoop (n + 1) p vend s.kmem = some k ∧
      Run (AllocStep BelowTop) s ops s' ∧ s'.kmem = k ∧ s'.call = none := by
  intro n
  induction n with
  | zero =>
    intro s p vend hcall hp _ _ hn
    have hloop : ¬p + pgSize ≤ vend := by
      rw [loop_test hp]
      omega
    refine ⟨s.kmem, [.freeRangeEnd], { s with call := none }, ?_,
      Run.single (.freeRangeEnd hcall hloop), rfl, rfl⟩
    rw [freeRangeLoop, if_neg hloop]
  | succ n ih =>
    intro s p vend hcall hp hal hvend hn
    by_cases hloop : p + pgSize ≤ vend
    · have hlt := (loop_test hp).mp hloop
      have hnext : (p + pgSize).toNat = p.toNat + 4096 := by
        rw [BitVec.toNat_add, pgSize_toNat]
        omega
      have hal' := hal.add_pgSize
      have hp' : (p + pgSize).toNat ≤ 0xFFFFE000 := by
        unfold PageAligned at hal'
        omega
      obtain ⟨k, ops, s', hk, hrun, hs', hnone⟩ := ih
        { s with kmem := kfree p s.kmem, managed := insert p s.managed,
                 call := some (p + pgSize, vend) }
        (p + pgSize) vend rfl hp' hal' hvend (by omega)
      refine ⟨k, .kfreeNext :: ops, s', ?_, Run.cons (.kfreeNext hcall hloop) hrun, hs', hnone⟩
      rw [freeRangeLoop, if_pos hloop]
      exact hk
    · refine ⟨s.kmem, [.freeRangeEnd], { s with call := none }, ?_,
        Run.single (.freeRangeEnd hcall hloop), rfl, rfl⟩
      rw [freeRangeLoop, if_neg hloop]

/-- Every admitted `free_range` call returns, and ends a run that starts with the call. -/
theorem freeRange_run {s : AllocState} (hcall : s.call = none) {vstart vend : Addr}
    (hfresh : RangeFresh s.managed vstart vend) (hlimit : BelowTop vstart vend) :
    ∃ n k ops s', freeRange n vstart vend s.kmem = some k ∧
      Run (AllocStep BelowTop) s (.freeRange vstart vend :: ops) s' ∧ s'.kmem = k ∧
      s'.call = none := by
  have hup := pgRoundUp_toNat vstart
  have hstart := hlimit.1
  obtain ⟨k, ops, s', hk, hrun, hs', hnone⟩ := freeRangeLoop_run vend.toNat
    { s with call := some (pgRoundUp vstart, vend) } (pgRoundUp vstart) vend rfl (by omega)
    (pageAligned_pgRoundUp vstart) hlimit.2 (by omega)
  exact ⟨_, k, ops, s', hk, Run.cons (.freeRange hcall hfresh hlimit) hrun, hs', hnone⟩

/-! ## The allocator's contract -/

/-- What the allocator promises in a state: the chain in memory is finite, repeats no page and holds
exactly the managed pages that are not handed out; `kalloc` fails exactly when there is none and
otherwise returns an aligned one; `kmem_size` returns the number of free bytes. -/
structure PoolOk (s : AllocState) : Prop where
  chain : ∃ l, Chain (runNext s.kmem.mem) 0 s.kmem.freelist l ∧ l.Nodup ∧
    (∀ p, p ∈ l ↔ p ∈ s.managed ∧ p ∉ s.out) ∧
    ∃ n w, kmemSize n s.kmem = some w ∧ w.toNat = 4096 * l.length
  out_managed : s.out ⊆ s.managed
  kalloc_null : (kalloc s.kmem).1 = 0 ↔ ∀ p ∈ s.managed, p ∈ s.out
  kalloc_page : (kalloc s.kmem).1 ≠ 0 → PageAligned (kalloc s.kmem).1 ∧
    (kalloc s.kmem).1 ∈ s.managed ∧ (kalloc s.kmem).1 ∉ s.out

theorem AllocInv.poolOk {s : AllocState} (h : AllocInv s) : PoolOk s := by
  obtain ⟨l, hl, hmem⟩ := h.free
  obtain ⟨w, hw, hsize⟩ := hl.kmemSize_eq
  refine ⟨⟨l, hl.chain, hl.nodup, hmem, _, w, hw, hsize⟩, h.out, ?_, ?_⟩
  · rw [hl.kalloc_zero, List.eq_nil_iff_forall_not_mem]
    constructor
    · intro hnil p hp
      by_contra ho
      exact hnil p ((hmem p).mpr ⟨hp, ho⟩)
    · intro hall p hp
      obtain ⟨hm, ho⟩ := (hmem p).mp hp
      exact ho (hall p hm)
  · intro hne
    cases l with
    | nil => exact absurd (hl.kalloc_zero.mpr rfl) hne
    | cons p l =>
      rw [hl.kalloc_cons]
      obtain ⟨hm, ho⟩ := (hmem p).mp List.mem_cons_self
      exact ⟨(h.page p hm).1, hm, ho⟩

/-- **The page allocator.** Over every run whose ranges stay below the top page, in every state
reached, inside a `free_range` call or between calls, the allocator keeps its promise, and every
further such `free_range` call returns. -/
theorem allocator_run {m : Mem} {ops : List AllocOp} {s : AllocState}
    (h : Run (AllocStep BelowTop) (AllocState.init m) ops s) :
    PoolOk s ∧ (s.call = none → ∀ vstart vend, RangeFresh s.managed vstart vend →
      BelowTop vstart vend → ∃ n k ops' s', freeRange n vstart vend s.kmem = some k ∧
        Run (AllocStep BelowTop) s (.freeRange vstart vend :: ops') s' ∧ s'.kmem = k ∧
        s'.call = none) :=
  ⟨(allocInv_run h).poolOk, fun hcall _ _ hfresh hlimit => freeRange_run hcall hfresh hlimit⟩

theorem allocator_run_two_pages : ∃ s,
    Run (AllocStep BelowTop) (AllocState.init fun _ => 0)
      [.freeRange 0x1000 0x3000, .kfreeNext, .kfreeNext, .freeRangeEnd, .kalloc] s ∧
      PoolOk s := by
  have hfresh : RangeFresh ∅ 0x1000 0x3000 := by
    refine ⟨by decide, fun p hp => ⟨?_, Set.notMem_empty p⟩⟩
    rintro rfl
    exact absurd hp.2.1 (by decide)
  have hrun : Run (AllocStep BelowTop) (AllocState.init fun _ => 0)
      [.freeRange 0x1000 0x3000, .kfreeNext, .kfreeNext, .freeRangeEnd, .kalloc] _ :=
    .cons (.freeRange rfl hfresh ⟨by decide, by decide⟩) <| .cons (.kfreeNext rfl (by decide)) <|
      .cons (.kfreeNext rfl (by decide)) <| .cons (.freeRangeEnd rfl (by decide)) <|
        .single (.kalloc rfl (by rw [kalloc_page]; decide))
  exact ⟨_, hrun, (allocator_run hrun).1⟩

/-! ## At the top of the address space -/

/-- With `vend = 0xFFFFF000` every aligned `p` passes the loop test, also after it has wrapped. -/
theorem freeRangeLoop_top : ∀ (n : Nat) (p : Addr) (s : Kmem), PageAligned p →
    freeRangeLoop n p 0xFFFFF000 s = none
  | 0, _, _, _ => rfl
  | n + 1, p, s, hp => by
    have hloop : p + pgSize ≤ 0xFFFFF000 := by
      have hal := hp.add_pgSize
      have hlt := (p + pgSize).isLt
      unfold PageAligned at hal
      rw [BitVec.le_def]
      show (p + pgSize).toNat ≤ 4294963200
      omega
    rw [freeRangeLoop, if_pos hloop]
    exact freeRangeLoop_top n _ _ hp.add_pgSize

/-- The one-page range that ends at the last page: the loop goes on to free the last page and then
page 0, which empties the list with a managed page lost, and never returns. -/
theorem freeRange_top_loses_pages :
    (∃ s, Run (AllocStep fun _ _ => True) (AllocState.init fun _ => 0)
      [.freeRange 0xFFFFE000 0xFFFFF000, .kfreeNext, .kfreeNext, .kfreeNext] s ∧ ¬PoolOk s) ∧
    ∀ n, freeRange n 0xFFFFE000 0xFFFFF000 ⟨fun _ => 0, 0⟩ = none := by
  have hfresh : RangeFresh ∅ 0xFFFFE000 0xFFFFF000 := by
    refine ⟨by decide, fun p hp => ⟨?_, Set.notMem_empty p⟩⟩
    rintro rfl
    exact absurd hp.2.1 (by decide)
  refine ⟨⟨_, .cons (.freeRange rfl hfresh trivial) <| .cons (.kfreeNext rfl (by decide)) <|
    .cons (.kfreeNext rfl (by decide)) <| .single (.kfreeNext rfl (by decide)), ?_⟩,
    fun n => freeRangeLoop_top n _ _ (by decide)⟩
  rintro ⟨⟨l, hl, -, hmem, -⟩, -, -, -⟩
  have hwrap : pgRoundUp 0xFFFFE000 + pgSize + pgSize = 0 := by decide
  have hnil : l = [] := hl.eq_nul_iff.mp hwrap
  subst hnil
  have hlost := (hmem (pgRoundUp 0xFFFFE000)).mpr ⟨Or.inr (Or.inr (Or.inl rfl)), fun h => h⟩
  cases hlost

end TuixOS
