import TuixOS.Mmu
import TuixOS.Lib.Chain
import Mathlib.Order.Interval.Finset.Nat

/-!
# The page allocator of `kernel/mm/kalloc.c`

The allocator's state is memory and the head of the free list; the list's links are the first words
of the free pages. `freeRange` and `kmemSize` loop over what memory holds, so they take fuel and
return `none` when it runs out.

After the definitions come the facts the rest of the development uses: what each call does to the
list `l` of free pages (`FreeList`) and which memory it leaves alone.
-/

namespace TuixOS

open Lib

/-- `kmem` of `kalloc.c`, together with the memory its list lives in. -/
structure Kmem where
  mem : Mem
  freelist : Addr

/-- `r->next`. -/
def runNext (m : Mem) (r : Addr) : Addr := load32 m r

/-- The first `n` rounds of the loop of `kfree` that overwrites the page with `FREE_STR`. -/
def fillLoop (p : Addr) : Nat → Mem → Mem
  | 0, m => m
  | n + 1, m => store32 (fillLoop p n m) (p + BitVec.ofNat 32 (4 * n)) freeStr

def kfree (ptr : Addr) (s : Kmem) : Kmem :=
  let m := fillLoop ptr 1024 s.mem
  { mem := store32 m ptr s.freelist, freelist := ptr }

def kalloc (s : Kmem) : Addr × Kmem :=
  let r := s.freelist
  if r ≠ 0 then (r, { s with freelist := runNext s.mem s.freelist }) else (r, s)

/-- The loop of `free_range` at `p`. -/
def freeRangeLoop : Nat → Addr → Addr → Kmem → Option Kmem
  | 0, _, _, _ => none
  | n + 1, p, vend, s =>
    if p + pgSize ≤ vend then freeRangeLoop n (p + pgSize) vend (kfree p s) else some s

def freeRange (fuel : Nat) (vstart vend : Addr) (s : Kmem) : Option Kmem :=
  freeRangeLoop fuel (pgRoundUp vstart) vend s

/-- The loop of `kmem_size` at `r`. -/
def kmemSizeLoop (m : Mem) : Nat → Addr → Word → Option Word
  | 0, _, _ => none
  | n + 1, r, count =>
    if r ≠ 0 then kmemSizeLoop m n (runNext m r) (count + 1) else some (count * pgSize)

def kmemSize (fuel : Nat) (s : Kmem) : Option Word := kmemSizeLoop s.mem fuel s.freelist 0

/-! ## What the calls write -/

theorem fillLoop_outside {p : Addr} (hp : PageAligned p) (m : Mem) :
    ∀ n, n ≤ 1024 → SameOutside p m (fillLoop p n m)
  | 0, _ => SameOutside.refl p m
  | n + 1, hn => by
    unfold PageAligned at hp
    have := p.isLt
    have haddr : (p + BitVec.ofNat 32 (4 * n)).toNat = p.toNat + 4 * n := by
      rw [BitVec.toNat_add, BitVec.toNat_ofNat]
      omega
    refine (fillLoop_outside hp m n (by omega)).trans (sameOutside_store32 _ _ ?_ ?_)
    · omega
    · apply BitVec.eq_of_toNat_eq
      rw [pgRoundDown_toNat, haddr]
      omega

theorem kfree_outside {p : Addr} (hp : PageAligned p) (s : Kmem) :
    SameOutside p s.mem (kfree p s).mem := by
  refine (fillLoop_outside hp s.mem 1024 (le_refl _)).trans (sameOutside_store32 _ _ ?_ ?_)
  · unfold PageAligned at hp
    omega
  · exact hp.pgRoundDown_eq

@[simp] theorem kfree_freelist (p : Addr) (s : Kmem) : (kfree p s).freelist = p := rfl

@[simp] theorem kfree_next (p : Addr) (s : Kmem) : runNext (kfree p s).mem p = s.freelist :=
  load32_store32 _ _ _

@[simp] theorem kalloc_mem (s : Kmem) : (kalloc s).2.mem = s.mem := by
  simp only [kalloc]
  split_ifs <;> rfl

@[simp] theorem kalloc_page (s : Kmem) : (kalloc s).1 = s.freelist := by
  simp only [kalloc]
  split_ifs <;> rfl

/-- The link of a page is unchanged by writes to another page. -/
theorem SameOutside.runNext {p q : Addr} {m m' : Mem} (h : SameOutside p m m')
    (hq : PageAligned q) (hne : q ≠ p) : runNext m' q = runNext m q := by
  refine h.load32 ?_ ?_
  · unfold PageAligned at hq
    omega
  · rwa [hq.pgRoundDown_eq]

/-! ## The free list -/

/-- The free list visits exactly the pages `l`, in order, and then ends. -/
structure FreeList (s : Kmem) (l : List Addr) : Prop where
  chain : Chain (runNext s.mem) 0 s.freelist l
  aligned : ∀ p ∈ l, PageAligned p

namespace FreeList
variable {s : Kmem} {l : List Addr}

theorem nodup (h : FreeList s l) : l.Nodup := h.chain.nodup

theorem ne_zero (h : FreeList s l) {p : Addr} (hp : p ∈ l) : p ≠ 0 := h.chain.ne_nul p hp

theorem unique {l' : List Addr} (h : FreeList s l) (h' : FreeList s l') : l = l' :=
  h.chain.unique h'.chain

/-- Writes to a page that is not free leave the list alone. -/
theorem write {p : Addr} {m : Mem} (h : FreeList s l) (hm : SameOutside p s.mem m) (hp : p ∉ l) :
    FreeList { s with mem := m } l where
  chain := h.chain.congr fun x hx => hm.runNext (h.aligned x hx) fun he => hp (he ▸ hx)
  aligned := h.aligned

theorem kfree {p : Addr} (h : FreeList s l) (hp : PageAligned p) (h0 : p ≠ 0) (hnot : p ∉ l) :
    FreeList (kfree p s) (p :: l) where
  chain := h.chain.push h0 (kfree_next p s) fun x hx =>
    (kfree_outside hp s).runNext (h.aligned x hx) fun he => hnot (he ▸ hx)
  aligned := by
    intro q hq
    rcases List.mem_cons.mp hq with rfl | hq
    · exact hp
    · exact h.aligned q hq

theorem kalloc_zero (h : FreeList s l) : (kalloc s).1 = 0 ↔ l = [] := by
  rw [kalloc_page]
  exact h.chain.eq_nul_iff

theorem kalloc_nil (h : FreeList s []) : kalloc s = (0, s) := by
  have h0 : s.freelist = 0 := h.chain
  simp [kalloc, h0]

theorem kalloc_cons {p : Addr} (h : FreeList s (p :: l)) :
    kalloc s = (p, { s with freelist := runNext s.mem p }) := by
  have hp : s.freelist = p := h.chain.1
  have h0 : p ≠ 0 := h.ne_zero List.mem_cons_self
  simp only [kalloc, hp]
  rw [if_pos h0]

theorem tail {p : Addr} (h : FreeList s (p :: l)) :
    FreeList { s with freelist := runNext s.mem p } l where
  chain := (Chain.cons_iff.mp h.chain).2.2
  aligned q hq := h.aligned q (List.mem_cons_of_mem p hq)

/-- Page 0 is never free and pages are aligned, so fewer than `2^20` pages are free. -/
theorem length_lt (h : FreeList s l) : l.length < 2 ^ 20 := by
  have hinj : (l.map fun p => p.toNat / 4096).Nodup := by
    refine h.nodup.map_on fun p hp q hq heq => ?_
    have h1 := h.aligned p hp
    have h2 := h.aligned q hq
    unfold PageAligned at h1 h2
    apply BitVec.eq_of_toNat_eq
    omega
  have hsub : (l.map fun p => p.toNat / 4096).toFinset ⊆ Finset.Ico 1 (2 ^ 20) := by
    intro n hn
    obtain ⟨p, hp, rfl⟩ := List.mem_map.mp (List.mem_toFinset.mp hn)
    have h0 : p.toNat ≠ 0 := fun h0 => h.ne_zero hp (BitVec.eq_of_toNat_eq h0)
    have h1 := h.aligned p hp
    unfold PageAligned at h1
    have := p.isLt
    rw [Finset.mem_Ico]
    omega
  have hcard := Finset.card_le_card hsub
  rw [List.toFinset_card_of_nodup hinj, List.length_map, Nat.card_Ico] at hcard
  omega

theorem kmemSizeLoop_eq {m : Mem} : ∀ {r : Addr} {l : List Addr}, Chain (runNext m) 0 r l →
    ∀ n count, l.length < n →
      kmemSizeLoop m n r count = some ((count + BitVec.ofNat 32 l.length) * pgSize)
  | r, [], h, n + 1, count, _ => by
    have h0 : r = 0 := h
    simp [kmemSizeLoop, h0]
  | r, q :: l, h, n + 1, count, hn => by
    obtain ⟨rfl, h0, hl⟩ := h
    rw [kmemSizeLoop, if_pos h0, kmemSizeLoop_eq hl n (count + 1) (by simpa using hn)]
    congr 2
    rw [List.length_cons, BitVec.ofNat_add, BitVec.add_assoc, BitVec.add_comm 1]
    rfl

/-- `kmem_size` terminates and counts the free pages; the product does not overflow. -/
theorem kmemSize_eq (h : FreeList s l) :
    ∃ w, kmemSize (l.length + 1) s = some w ∧ w.toNat = 4096 * l.length := by
  refine ⟨_, kmemSizeLoop_eq h.chain _ _ (Nat.lt_succ_self _), ?_⟩
  have := h.length_lt
  rw [BitVec.toNat_mul, BitVec.toNat_add, BitVec.toNat_ofNat, pgSize_toNat]
  simp only [BitVec.ofNat_eq_ofNat, BitVec.toNat_ofNat]
  omega

end FreeList

end TuixOS
