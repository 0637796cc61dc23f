import TuixOS.MapPages
import Mathlib.Data.List.Pairwise
import Mathlib.Tactic.IntervalCases

/-!
# The kernel's address space

`setup_kvm` maps the ranges of `k_maps` one after the other. For ranges that do not overlap its
result is the table of ranges itself: the entry of an address is that of the range which covers it
(`setupKvmLoop_ok`). For the table `init_kmappings` makes, that is the layout `kernelLayout`.
-/

namespace TuixOS

open Lib

/-! ## A table of ranges -/

namespace Kmap

def size (k : Kmap) : Word := k.physEnd - k.physStart

/-- `va` lies in the range. -/
def Covers (k : Kmap) (va : Addr) : Prop :=
  k.virt.toNat ≤ va.toNat ∧ va.toNat < k.virt.toNat + k.size.toNat

instance (k : Kmap) (va : Addr) : Decidable (k.Covers va) := inferInstanceAs (Decidable (_ ∧ _))

/-- The range is made of whole pages and ends at or below `2^32`. -/
structure Whole (k : Kmap) : Prop where
  aligned : PageAligned k.virt
  pages : k.size.toNat % 4096 = 0
  pos : 0 < k.size.toNat
  fits : k.virt.toNat + k.size.toNat ≤ 2 ^ 32

def pte (k : Kmap) (va : Addr) : Word := mappedPte k.virt k.physStart k.perm va

/-- The directory entries of the range. -/
def dirs (k : Kmap) : Finset Nat :=
  Finset.Icc (k.virt.toNat / 2 ^ 22) ((k.virt.toNat + k.size.toNat - 1) / 2 ^ 22)

end Kmap

/-- `map_pages` as `setup_kvm` calls it for one range. -/
theorem mapPages_kmap {pgdir : Addr} {k : Kmap} {s : Kmem} {l : List Addr} (hl : FreeList s l)
    (hd : DirOk s.mem pgdir l) (hk : k.Whole)
    (hfree : ∀ va, k.Covers va → pteOf s.mem pgdir va &&& pteP = 0)
    (hcard : (dirs s.mem pgdir ∪ k.dirs).card ≤ (dirs s.mem pgdir).card + l.length) :
    ∃ s' l', mapPages pgdir k.virt (k.physEnd - k.physStart) k.physStart k.perm s = .ok (0, s') ∧
      Extends pgdir s l s' l' ∧
      (∀ va, pteOf s'.mem pgdir va = if k.Covers va then k.pte va else pteOf s.mem pgdir va) ∧
      dirs s'.mem pgdir = dirs s.mem pgdir ∪ k.dirs := by
  have hpages := hk.pages
  have hpos := hk.pos
  exact mapPages_ok (n := k.size.toNat / 4096 - 1) hl hd hk.aligned
    (by show k.size.toNat = _; omega) hk.fits (fun va hlo hhi => hfree va ⟨hlo, hhi⟩) hcard _ _

/-- The entry of `va` when `ks` is mapped over the entries `f`. -/
def kmapsPte : List Kmap → (Addr → Word) → Addr → Word
  | [], f, va => f va
  | k :: ks, f, va => if k.Covers va then k.pte va else kmapsPte ks f va

def kmapsDirs : List Kmap → Finset Nat
  | [] => ∅
  | k :: ks => k.dirs ∪ kmapsDirs ks

theorem kmapsPte_congr {f g : Addr → Word} {va : Addr} : ∀ {ks : List Kmap},
    ((∀ k ∈ ks, ¬k.Covers va) → f va = g va) → kmapsPte ks f va = kmapsPte ks g va
  | [], h => h fun _ hk => absurd hk List.not_mem_nil
  | k :: ks, h => by
    unfold kmapsPte
    split_ifs with hk
    · rfl
    · apply kmapsPte_congr
      intro hks
      apply h
      simpa [hk] using hks

theorem kmapsPte_not_covered {f : Addr → Word} {va : Addr} : ∀ {ks : List Kmap},
    (∀ k ∈ ks, ¬k.Covers va) → kmapsPte ks f va = f va
  | [], _ => rfl
  | k :: ks, h => by
    rw [kmapsPte, if_neg (h k List.mem_cons_self)]
    exact kmapsPte_not_covered fun k' hk' => h k' (List.mem_cons_of_mem k hk')

theorem kmapsPte_all {P : Word → Prop} {f : Addr → Word} {va : Addr} : ∀ {ks : List Kmap},
    (∀ k ∈ ks, P (k.pte va)) → P (f va) → P (kmapsPte ks f va)
  | [], _, hf => hf
  | k :: ks, h, hf => by
    unfold kmapsPte
    split_ifs
    · exact h k List.mem_cons_self
    · exact kmapsPte_all (fun k' hk' => h k' (List.mem_cons_of_mem k hk')) hf

/-- The loop of `setup_kvm` over ranges that do not overlap and are not mapped yet, with a free
page for each directory entry they add. -/
theorem setupKvmLoop_ok {pgdir : Addr} : ∀ {ks : List Kmap} {s : Kmem} {l : List Addr},
    FreeList s l → DirOk s.mem pgdir l → (∀ k ∈ ks, k.Whole) →
    ks.Pairwise (fun k k' => ∀ va, k.Covers va → ¬k'.Covers va) →
    (∀ k ∈ ks, ∀ va, k.Covers va → pteOf s.mem pgdir va &&& pteP = 0) →
    (dirs s.mem pgdir ∪ kmapsDirs ks).card ≤ (dirs s.mem pgdir).card + l.length →
    ∃ s' l', setupKvmLoop pgdir ks s = .ok s' ∧ Extends pgdir s l s' l' ∧
      (∀ va, pteOf s'.mem pgdir va = kmapsPte ks (pteOf s.mem pgdir) va) ∧
      dirs s'.mem pgdir = dirs s.mem pgdir ∪ kmapsDirs ks := by
  intro ks
  induction ks with
  | nil =>
    intro s l hl hd _ _ _ _
    exact ⟨s, l, rfl, Extends.refl hl hd, fun _ => rfl, (Finset.union_empty _).symm⟩
  | cons k ks ih =>
    intro s l hl hd hwhole hdisj hfree hcard
    obtain ⟨hdisj₁, hdisj⟩ := List.pairwise_cons.mp hdisj
    have hk := hwhole k List.mem_cons_self
    have hunion : dirs s.mem pgdir ∪ k.dirs ∪ kmapsDirs ks =
        dirs s.mem pgdir ∪ kmapsDirs (k :: ks) := Finset.union_assoc _ _ _
    have hsub : dirs s.mem pgdir ∪ k.dirs ⊆ dirs s.mem pgdir ∪ kmapsDirs (k :: ks) :=
      hunion ▸ Finset.subset_union_left
    obtain ⟨s₁, l₁, hmap, hext, hpte, hdirs⟩ := mapPages_kmap hl hd hk
      (hfree k List.mem_cons_self) ((Finset.card_le_card hsub).trans hcard)
    have hcount := hext.count
    obtain ⟨s₂, l₂, hloop, hext', hpte', hdirs'⟩ := ih hext.free hext.dir
      (fun k' hk' => hwhole k' (List.mem_cons_of_mem k hk')) hdisj
      (fun k' hk' va hva => by
        rw [hpte, if_neg fun hc => hdisj₁ k' hk' va hc hva]
        exact hfree k' (List.mem_cons_of_mem k hk') va hva)
      (by rw [hdirs, hunion, ← hdirs]; omega)
    refine ⟨s₂, l₂, ?_, hext.trans hext', fun va => ?_, ?_⟩
    · rw [setupKvmLoop, hmap]
      exact hloop
    · rw [hpte', kmapsPte]
      by_cases hc : k.Covers va
      · have hnone : ∀ k' ∈ ks, ¬k'.Covers va := fun k' hk' => hdisj₁ k' hk' va hc
        rw [kmapsPte_not_covered hnone, hpte, if_pos hc, if_pos hc]
      · rw [if_neg hc]
        apply kmapsPte_congr
        intro _
        rw [hpte, if_neg hc]
    · rw [hdirs', hdirs, hunion]

/-! ## A cleared directory -/

section Cleared
variable {m : Mem} {pgdir : Addr}

theorem absent_memset (hal : PageAligned pgdir) (h0 : pgdir ≠ 0) (va : Addr) :
    ¬Present (memset pgdir 0 pgSize m).2 pgdir va := by
  rw [Present, pdeOf, entry_memset hal h0 (pdx_lt va)]
  decide

theorem dirOk_of_absent {l : List Addr} (hal : PageAligned pgdir) (hnot : pgdir ∉ l)
    (habs : ∀ va, ¬Present m pgdir va) : DirOk m pgdir l where
  aligned := hal
  not_free := hnot
  tab_ne va hp := absurd hp (habs va)
  tab_inj va _ hp _ _ := absurd hp (habs va)

theorem dirs_of_absent (habs : ∀ va, ¬Present m pgdir va) : dirs m pgdir = ∅ :=
  Finset.filter_eq_empty_iff.mpr fun _ _ => habs _

theorem pteOf_of_absent (habs : ∀ va, ¬Present m pgdir va) (va : Addr) : pteOf m pgdir va = 0 :=
  if_neg (habs va)

end Cleared

/-! ## The table of `init_kmappings` -/

section InitKmappings
variable {kdata : Addr}

theorem text_size (hlo : kernLink < kdata) :
    (v2p kdata - v2p kernLink).toNat = kdata.toNat - 0x80100000 := by
  have hlo' : 0x80100000 < kdata.toNat := hlo
  unfold v2p kernLink kernBase extMem
  bv_omega

theorem data_size (hhi : kdata < p2v physTop) (hlo : kernLink < kdata) :
    (physTop - v2p kdata).toNat = 0x8E000000 - kdata.toNat := by
  have hlo' : 0x80100000 < kdata.toNat := hlo
  have hhi' : kdata.toNat < 0x8E000000 := hhi
  unfold v2p kernBase physTop
  bv_omega

theorem forall_initKmappings {P : Kmap → Prop} : (∀ k ∈ initKmappings kdata, P k) ↔
    P ⟨kernBase, 0, extMem, pteW⟩ ∧ P ⟨kernLink, v2p kernLink, v2p kdata, 0⟩ ∧
      P ⟨kdata, v2p kdata, physTop, pteW⟩ ∧ P ⟨devSpace, devSpace, 0, pteW⟩ := by
  simp [initKmappings]

theorem initKmappings_whole (hal : PageAligned kdata) (hlo : kernLink < kdata)
    (hhi : kdata < p2v physTop) : ∀ k ∈ initKmappings kdata, k.Whole := by
  have hlo' : 0x80100000 < kdata.toNat := hlo
  have hhi' : kdata.toNat < 0x8E000000 := hhi
  have htext := text_size hlo
  have hdata := data_size hhi hlo
  have hal' := hal
  unfold PageAligned at hal'
  rw [forall_initKmappings]
  refine ⟨⟨by decide, by decide, by decide, by decide⟩,
    ⟨(by decide : PageAligned kernLink), ?_, ?_, ?_⟩, ⟨hal, ?_, ?_, ?_⟩,
    ⟨by decide, by decide, by decide, by decide⟩⟩
  all_goals simp only [Kmap.size, htext, hdata]
  · omega
  · omega
  · show 0x80100000 + _ ≤ 2 ^ 32
    omega
  all_goals omega

/-- Which range covers an address. -/
theorem covers_initKmappings (hlo : kernLink < kdata) (hhi : kdata < p2v physTop) (va : Addr) :
    (Kmap.Covers ⟨kernBase, 0, extMem, pteW⟩ va ↔
      0x80000000 ≤ va.toNat ∧ va.toNat < 0x80100000) ∧
    (Kmap.Covers ⟨kernLink, v2p kernLink, v2p kdata, 0⟩ va ↔
      0x80100000 ≤ va.toNat ∧ va.toNat < kdata.toNat) ∧
    (Kmap.Covers ⟨kdata, v2p kdata, physTop, pteW⟩ va ↔
      kdata.toNat ≤ va.toNat ∧ va.toNat < 0x8E000000) ∧
    (Kmap.Covers ⟨devSpace, devSpace, 0, pteW⟩ va ↔ 0xFE000000 ≤ va.toNat) := by
  have hlo' : 0x80100000 < kdata.toNat := hlo
  have hhi' : kdata.toNat < 0x8E000000 := hhi
  have hbound := va.isLt
  have hlink : kernLink.toNat = 0x80100000 := rfl
  have hdev : devSpace.toNat = 0xFE000000 := rfl
  have hio : (extMem - 0).toNat = 0x100000 := rfl
  have hdevSize : (0 - devSpace).toNat = 0x2000000 := rfl
  simp only [Kmap.Covers, Kmap.size, text_size hlo, data_size hhi hlo, kernBase_toNat, hlink, hdev,
    hio, hdevSize]
  exact ⟨trivial, by omega, by omega, by omega⟩

theorem initKmappings_disjoint (hlo : kernLink < kdata) (hhi : kdata < p2v physTop) :
    (initKmappings kdata).Pairwise fun k k' => ∀ va, k.Covers va → ¬k'.Covers va := by
  have hlo' : 0x80100000 < kdata.toNat := hlo
  have hhi' : kdata.toNat < 0x8E000000 := hhi
  simp only [initKmappings, List.pairwise_cons, List.mem_cons, List.not_mem_nil, or_false,
    forall_eq_or_imp, forall_eq, false_imp_iff, implies_true, List.Pairwise.nil, and_true]
  refine ⟨⟨fun va => ?_, fun va => ?_, fun va => ?_⟩, ⟨fun va => ?_, fun va => ?_⟩, fun va => ?_⟩
  all_goals
    obtain ⟨h₀, h₁, h₂, h₃⟩ := covers_initKmappings hlo hhi va
    simp only [h₀, h₁, h₂, h₃]
    omega

/-- The directory entries of the kernel's half. -/
def kernelDirs : Finset Nat := Finset.Icc 512 567 ∪ Finset.Icc 1016 1023

theorem card_kernelDirs : kernelDirs.card = 64 := by
  rw [kernelDirs, Finset.card_union_of_disjoint]
  · simp
  · rw [Finset.disjoint_left]
    intro i hi hi'
    rw [Finset.mem_Icc] at hi hi'
    omega

/-- 64 page tables, whatever `kdata` is. -/
theorem kmapsDirs_initKmappings (hlo : kernLink < kdata) (hhi : kdata < p2v physTop) :
    kmapsDirs (initKmappings kdata) = kernelDirs := by
  have hlo' : 0x80100000 < kdata.toNat := hlo
  have hhi' : kdata.toNat < 0x8E000000 := hhi
  have hlink : kernLink.toNat = 0x80100000 := rfl
  have hdev : devSpace.toNat = 0xFE000000 := rfl
  have hio : (extMem - 0).toNat = 0x100000 := rfl
  have hdevSize : (0 - devSpace).toNat = 0x2000000 := rfl
  ext i
  simp only [kernelDirs, initKmappings, kmapsDirs, Kmap.dirs, Kmap.size, text_size hlo, data_size hhi hlo,
    kernBase_toNat, hlink, hdev, hio, hdevSize, Finset.mem_union, Finset.mem_Icc,
    Finset.notMem_empty, or_false]
  omega

/-- The entries `setup_kvm` leaves. -/
def kernelPte (kdata : Addr) : Addr → Word := kmapsPte (initKmappings kdata) fun _ => 0

/-- What `setup_kvm` leaves behind when it takes `pgdir` and its tables from the free list `l`. -/
structure KernelDir (kdata pgdir : Addr) (s : Kmem) (l : List Addr) (s' : Kmem) : Prop where
  page : pgdir ∈ l
  free : FreeList s' (l.drop 65)
  dir : DirOk s'.mem pgdir (l.drop 65)
  pde : ∀ va, Present s'.mem pgdir va →
    tabOf s'.mem pgdir va ∈ l ∧ pdeOf s'.mem pgdir va = v2p (tabOf s'.mem pgdir va) ||| dirFlags
  pte : ∀ va, pteOf s'.mem pgdir va = kernelPte kdata va
  present : dirs s'.mem pgdir = kernelDirs
  frame : ∀ x, pgRoundDown x ∉ l → s'.mem x = s.mem x

theorem setupKvm_ok (hal : PageAligned kdata) (hlo : kernLink < kdata) (hhi : kdata < p2v physTop)
    {s : Kmem} {l : List Addr} (hl : FreeList s l) (hlen : 65 ≤ l.length) :
    ∃ pgdir s', setupKvm (initKmappings kdata) s = .ok (pgdir, s') ∧
      KernelDir kdata pgdir s l s' := by
  have hne : l ≠ [] := List.length_pos_iff.mp (by omega)
  obtain ⟨pgdir, l₀, rfl⟩ := List.exists_cons_of_ne_nil hne
  have hpage := hl.aligned pgdir List.mem_cons_self
  have h0 : pgdir ≠ 0 := hl.ne_zero List.mem_cons_self
  have hnot : pgdir ∉ l₀ := (List.nodup_cons.mp hl.nodup).1
  have habs := absent_memset (m := s.mem) hpage h0
  have hclear := sameOutside_memset hpage h0 0 s.mem
  have hdirs := dirs_of_absent habs
  have hkdirs := kmapsDirs_initKmappings hlo hhi
  rw [List.length_cons] at hlen
  obtain ⟨s', l', hloop, hext, hpte, hdirs'⟩ := setupKvmLoop_ok (hl.tail.write hclear hnot)
    (dirOk_of_absent hpage hnot habs) (initKmappings_whole hal hlo hhi)
    (initKmappings_disjoint hlo hhi)
    (fun k _ va _ => by rw [pteOf_of_absent habs]; exact BitVec.zero_and)
    (by rw [hdirs, Finset.empty_union, hkdirs, card_kernelDirs, Finset.card_empty]; omega)
  rw [hdirs, Finset.empty_union, hkdirs] at hdirs'
  have hdrop : l' = (pgdir :: l₀).drop 65 := by
    have hcount := hext.count
    rw [hdirs, hdirs', card_kernelDirs, Finset.card_empty] at hcount
    rw [List.suffix_iff_eq_drop.mp hext.suffix, List.drop_succ_cons]
    congr 1
    omega
  refine ⟨pgdir, s', ?_, List.mem_cons_self, hdrop ▸ hext.free, hdrop ▸ hext.dir, fun va hp => ?_,
    fun va => ?_, ?_, fun x hx => ?_⟩
  · unfold setupKvm
    simp only [hl.kalloc_cons]
    rw [if_neg h0, hloop]
    rfl
  · obtain ⟨htab, hpde⟩ := hext.fresh va (habs va) hp
    exact ⟨List.mem_cons_of_mem pgdir htab, hpde⟩
  · rw [hpte]
    exact kmapsPte_congr fun _ => pteOf_of_absent habs va
  · exact hdirs'
  · rw [List.mem_cons, not_or] at hx
    exact (hext.frame x hx.1 hx.2 fun va hp => absurd hp (habs va)).trans (hclear x hx.1)

end InitKmappings

/-! ## The translation -/

/-- What the MMU reads off a page table entry whose directory entry has every right. -/
def pteTranslation (pte : Word) (va : Addr) : Option Translation :=
  if pte &&& pteP = 0 then none
  else some ⟨pteAddr pte ||| (va &&& 0xFFF#32), pte &&& pteW ≠ 0, pte &&& pteU ≠ 0⟩

/-- Where the directory entries are those of `walk_pgdir`, the page table entries decide. -/
theorem translate_eq {m : Mem} {pgdir va : Addr} (hpde : Present m pgdir va →
    pdeOf m pgdir va = v2p (tabOf m pgdir va) ||| dirFlags) :
    translate m pgdir va = pteTranslation (pteOf m pgdir va) va := by
  have hload : load32 m (pgdir + 4 * pdx va) = pdeOf m pgdir va := rfl
  unfold translate
  simp only [hload]
  by_cases hp : Present m pgdir va
  · have hlow : ∀ b : Word, b.toNat < 4096 → pdeOf m pgdir va &&& b = dirFlags &&& b := by
      intro b hb
      rw [hpde hp]
      exact or_and_low (pageAligned_tabOf m pgdir va).v2p hb
    have hw : (dirFlags &&& pteW ≠ 0) = True := eq_true (by decide)
    have hu : (dirFlags &&& pteU ≠ 0) = True := eq_true (by decide)
    rw [if_neg hp, hlow ptePS (by decide), if_neg (by decide), hlow pteW (by decide),
      hlow pteU (by decide), pteTranslation, pteOf, if_pos hp]
    simp only [hw, hu, true_and]
    rfl
  · rw [if_pos (not_not.mp hp), pteOf, if_neg hp]
    rfl

theorem mappedPte_aligned {start : Addr} {pa : Word} (hal : PageAligned start)
    (hpa : PageAligned pa) (va : Addr) : PageAligned (pa + (pgRoundDown va - start)) := by
  unfold PageAligned at *
  have := pageAligned_pgRoundDown va
  unfold PageAligned at this
  have := start.isLt
  rw [BitVec.toNat_add, BitVec.toNat_sub]
  omega

/-- A flag of a mapped entry other than `PTE_P` is that of the permission. -/
theorem mappedPte_flag {start : Addr} {pa perm : Word} (hal : PageAligned start)
    (hpa : PageAligned pa) {b : Word} (hb : b.toNat < 4096) (hbp : pteP &&& b = 0) (va : Addr) :
    mappedPte start pa perm va &&& b = perm &&& b := by
  rw [mappedPte, BitVec.or_assoc, or_and_low (mappedPte_aligned hal hpa va) hb,
    BitVec.and_or_distrib_right, hbp]
  exact BitVec.or_zero

theorem mappedPte_present {start : Addr} {pa : Word} (perm : Word) (hal : PageAligned start)
    (hpa : PageAligned pa) (va : Addr) : mappedPte start pa perm va &&& pteP ≠ 0 := by
  rw [mappedPte, BitVec.or_assoc, or_and_low (mappedPte_aligned hal hpa va) (by decide),
    BitVec.and_or_distrib_right]
  intro h
  have hbit := congrArg (fun w : Word => w.getLsbD 0) h
  simp [pteP] at hbit

theorem pteTranslation_mappedPte {start : Addr} {pa perm : Word} (hal : PageAligned start)
    (hpa : PageAligned pa) (hperm : (perm ||| pteP).toNat < 4096) (va : Addr) :
    pteTranslation (mappedPte start pa perm va) va =
      some ⟨pa + (va - start), perm &&& pteW ≠ 0, perm &&& pteU ≠ 0⟩ := by
  have hpage := mappedPte_aligned hal hpa va
  have hpres := mappedPte_present perm hal hpa va
  have haddr : pteAddr (mappedPte start pa perm va) = pa + (pgRoundDown va - start) := by
    rw [mappedPte, BitVec.or_assoc, pteAddr_or hpage hperm]
  have hpa' : pa + (pgRoundDown va - start) + (va - pgRoundDown va) = pa + (va - start) := by
    grind
  rw [pteTranslation, if_neg hpres, haddr, or_offset hpage, hpa',
    mappedPte_flag hal hpa (by decide) (by decide), mappedPte_flag hal hpa (by decide) (by decide)]

/-- The kernel half of every address space, and nothing below it. -/
def kernelLayout (kdata va : Addr) : Option Translation :=
  if kernBase ≤ va ∧ va < p2v physTop then
    some ⟨v2p va, va < kernLink ∨ kdata ≤ va, false⟩
  else if devSpace ≤ va then some ⟨va, true, false⟩
  else none

/-- Kernel text is read-only. -/
theorem kernelLayout_text {kdata va : Addr} (hhi : kdata < p2v physTop) (hlow : kernLink ≤ va)
    (hhigh : va < kdata) : kernelLayout kdata va = some ⟨v2p va, false, false⟩ := by
  have hhi' : kdata.toNat < 0x8E000000 := hhi
  have hlow' : 0x80100000 ≤ va.toNat := hlow
  have hhigh' : va.toNat < kdata.toNat := hhigh
  have hbase : kernBase ≤ va := show 0x80000000 ≤ va.toNat by omega
  have htop : va < p2v physTop := show va.toNat < 0x8E000000 by omega
  rw [kernelLayout, if_pos ⟨hbase, htop⟩, decide_eq_false]
  rintro (hlink | hdata)
  · exact absurd hlow (BitVec.not_le.mpr hlink)
  · exact absurd hdata (BitVec.not_le.mpr hhigh)

theorem kernelPte_translation {kdata : Addr} (hal : PageAligned kdata) (hlo : kernLink < kdata)
    (hhi : kdata < p2v physTop) (va : Addr) :
    pteTranslation (kernelPte kdata va) va = kernelLayout kdata va := by
  have hlo' : 0x80100000 < kdata.toNat := hlo
  have hhi' : kdata.toNat < 0x8E000000 := hhi
  obtain ⟨h₀, h₁, h₂, h₃⟩ := covers_initKmappings hlo hhi va
  have hbase : kernBase ≤ va ↔ 0x80000000 ≤ va.toNat := Iff.rfl
  have htop : va < p2v physTop ↔ va.toNat < 0x8E000000 := Iff.rfl
  have hlink : va < kernLink ↔ va.toNat < 0x80100000 := Iff.rfl
  have hkd : kdata ≤ va ↔ kdata.toNat ≤ va.toNat := Iff.rfl
  have hdev : devSpace ≤ va ↔ 0xFE000000 ≤ va.toNat := Iff.rfl
  unfold kernelPte kernelLayout
  simp only [initKmappings, kmapsPte, h₀, h₁, h₂, h₃, hbase, htop, hlink, hkd, hdev, Kmap.pte]
  by_cases hio : 0x80000000 ≤ va.toNat ∧ va.toNat < 0x80100000
  · rw [if_pos hio, if_pos (by omega), pteTranslation_mappedPte (by decide) (by decide) (by decide),
      decide_eq_true (show va.toNat < 0x80100000 ∨ _ from Or.inl hio.2)]
    have hpa : 0 + (va - kernBase) = v2p va := BitVec.zero_add _
    rw [hpa]
    rfl
  rw [if_neg hio]
  by_cases htext : 0x80100000 ≤ va.toNat ∧ va.toNat < kdata.toNat
  · rw [if_pos htext, if_pos (by omega),
      pteTranslation_mappedPte (by decide) (by decide) (by decide),
      decide_eq_false (show ¬(va.toNat < 0x80100000 ∨ _) by omega)]
    have hpa : v2p kernLink + (va - kernLink) = v2p va := by
      unfold v2p
      bv_omega
    rw [hpa]
    rfl
  rw [if_neg htext]
  by_cases hdata : kdata.toNat ≤ va.toNat ∧ va.toNat < 0x8E000000
  · rw [if_pos hdata, if_pos (by omega), pteTranslation_mappedPte hal hal.v2p (by decide),
      decide_eq_true (show _ ∨ kdata.toNat ≤ va.toNat from Or.inr hdata.1)]
    have hpa : v2p kdata + (va - kdata) = v2p va := by
      unfold v2p
      bv_omega
    rw [hpa]
    rfl
  rw [if_neg hdata, if_neg (show ¬(0x80000000 ≤ va.toNat ∧ va.toNat < 0x8E000000) by omega)]
  by_cases hdevice : 0xFE000000 ≤ va.toNat
  · rw [if_pos hdevice, if_pos hdevice,
      pteTranslation_mappedPte (by decide) (by decide) (by decide)]
    have hpa : devSpace + (va - devSpace) = va := by bv_omega
    rw [hpa]
    rfl
  · rw [if_neg hdevice, if_neg hdevice]
    rfl

/-- No entry `setup_kvm` leaves is open to user mode. -/
theorem kernelPte_user {kdata : Addr} (hal : PageAligned kdata) (va : Addr) :
    kernelPte kdata va &&& pteU = 0 := by
  apply kmapsPte_all (P := fun pte => pte &&& pteU = 0)
  · have hkmap : ∀ virt phys physEnd perm, PageAligned virt → PageAligned phys →
        perm &&& pteU = 0 → Kmap.pte ⟨virt, phys, physEnd, perm⟩ va &&& pteU = 0 :=
      fun _ _ _ _ hvirt hphys hperm =>
        (mappedPte_flag hvirt hphys (by decide) (by decide) va).trans hperm
    rw [forall_initKmappings]
    exact ⟨hkmap _ _ _ _ (by decide) (by decide) (by decide),
      hkmap _ _ _ _ (by decide) (by decide) (by decide),
      hkmap _ _ _ _ hal hal.v2p (by decide),
      hkmap _ _ _ _ (by decide) (by decide) (by decide)⟩
  · decide

theorem KernelDir.translate {kdata pgdir : Addr} {s s' : Kmem} {l : List Addr}
    (h : KernelDir kdata pgdir s l s') (hal : PageAligned kdata) (hlo : kernLink < kdata)
    (hhi : kdata < p2v physTop) (va : Addr) :
    TuixOS.translate s'.mem pgdir va = kernelLayout kdata va := by
  rw [translate_eq fun hp => (h.pde va hp).2, h.pte, kernelPte_translation hal hlo hhi]

/-- **The kernel's address space.** With 65 free pages `setup_kvm` returns a directory that maps
exactly the kernel's layout, for every split between text and data, and takes exactly 65 pages:
the directory and 64 tables. -/
theorem setupKvm_layout {kdata : Addr} (hal : PageAligned kdata) (hlo : kernLink < kdata)
    (hhi : kdata < p2v physTop) {s : Kmem} {l : List Addr} (hl : FreeList s l)
    (hlen : 65 ≤ l.length) :
    ∃ pgdir s', setupKvm (initKmappings kdata) s = .ok (pgdir, s') ∧ pgdir ≠ 0 ∧
      FreeList s' (l.drop 65) ∧
      (∀ va, translate s'.mem pgdir va = kernelLayout kdata va) ∧
      ∀ va, pteOf s'.mem pgdir va &&& pteU = 0 := by
  obtain ⟨pgdir, s', hrun, hdir⟩ := setupKvm_ok hal hlo hhi hl hlen
  refine ⟨pgdir, s', hrun, hl.ne_zero hdir.page, hdir.free, hdir.translate hal hlo hhi, fun va => ?_⟩
  rw [hdir.pte]
  exact kernelPte_user hal va

/-- `n` pages from `0x80200000` on, the last freed first. -/
def somePages (n : Nat) : List Addr := (List.range n).reverse.map fun i =>
  BitVec.ofNat 32 (0x80200000 + i * 4096)

def someFree : Nat → Kmem
  | 0 => ⟨fun _ => 0, 0⟩
  | n + 1 => kfree (BitVec.ofNat 32 (0x80200000 + n * 4096)) (someFree n)

theorem someFree_ok : ∀ n, n ≤ 1024 → FreeList (someFree n) (somePages n)
  | 0, _ => ⟨rfl, fun _ h => absurd h List.not_mem_nil⟩
  | n + 1, hn => by
    have hpages : somePages (n + 1) =
        BitVec.ofNat 32 (0x80200000 + n * 4096) :: somePages n := by
      simp [somePages, List.range_succ]
    rw [hpages]
    apply (someFree_ok n (by omega)).kfree
    · rw [PageAligned, BitVec.toNat_ofNat]
      omega
    · intro h
      have := congrArg BitVec.toNat h
      simp only [BitVec.toNat_ofNat, BitVec.ofNat_eq_ofNat] at this
      omega
    · intro h
      obtain ⟨i, hi, he⟩ := List.mem_map.mp h
      have := congrArg BitVec.toNat he
      rw [List.mem_reverse, List.mem_range] at hi
      simp only [BitVec.toNat_ofNat] at this
      omega

theorem setupKvm_layout_64K : ∃ pgdir s',
    setupKvm (initKmappings 0x80110000) (someFree 70) = .ok (pgdir, s') ∧ pgdir ≠ 0 ∧
      FreeList s' ((somePages 70).drop 65) ∧
      (∀ va, translate s'.mem pgdir va = kernelLayout 0x80110000 va) ∧
      ∀ va, pteOf s'.mem pgdir va &&& pteU = 0 :=
  setupKvm_layout (by decide) (by decide) (by decide) (someFree_ok 70 (by decide)) (by decide)

end TuixOS
