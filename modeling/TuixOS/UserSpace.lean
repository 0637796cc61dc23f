import TuixOS.KernelSpace

/-!
# The address space of a new process

`init_uvm` adds one page at address 0 to a directory made by `setup_kvm`. `walk_pgdir` opens every
directory entry to user mode, so that the kernel's half stays closed rests on its page table
entries (`kernelPte_user`), and that no stale word opens it on new tables being cleared
(`walkPgdir_ok`).
-/

namespace TuixOS

open Lib

/-- The tables let user mode reach `va`. -/
def UserReachable (m : Mem) (pgdir va : Addr) : Prop :=
  (pdeOf m pgdir va &&& pteP ≠ 0 ∧ pdeOf m pgdir va &&& pteU ≠ 0) ∧
    entry m (tabOf m pgdir va) (ptx va) &&& pteP ≠ 0 ∧
    entry m (tabOf m pgdir va) (ptx va) &&& pteU ≠ 0

theorem userReachable_iff {m : Mem} {pgdir va : Addr} (hpde : Present m pgdir va →
    pdeOf m pgdir va = v2p (tabOf m pgdir va) ||| dirFlags) :
    UserReachable m pgdir va ↔ pteOf m pgdir va &&& pteP ≠ 0 ∧ pteOf m pgdir va &&& pteU ≠ 0 := by
  by_cases hp : Present m pgdir va
  · have hu : pdeOf m pgdir va &&& pteU ≠ 0 := by
      rw [hpde hp, or_and_low (pageAligned_tabOf m pgdir va).v2p (by decide)]
      decide
    rw [UserReachable, pteOf, if_pos hp]
    exact and_iff_right ⟨hp, hu⟩
  · rw [pteOf, if_neg hp]
    constructor
    · intro h
      exact absurd h.1.1 hp
    · intro h
      exact absurd BitVec.zero_and h.1

theorem kernelPte_low {kdata va : Addr} (hlo : kernLink < kdata) (hhi : kdata < p2v physTop)
    (hva : va.toNat < 0x80000000) : kernelPte kdata va = 0 := by
  apply kmapsPte_not_covered
  have hlo' : 0x80100000 < kdata.toNat := hlo
  have hhi' : kdata.toNat < 0x8E000000 := hhi
  obtain ⟨h₀, h₁, h₂, h₃⟩ := covers_initKmappings hlo hhi va
  rw [forall_initKmappings, h₀, h₁, h₂, h₃]
  omega

/-- Fewer free pages, same shape. -/
theorem DirOk.mono {m : Mem} {pgdir : Addr} {l l' : List Addr} (h : DirOk m pgdir l)
    (hsub : l' ⊆ l) : DirOk m pgdir l' where
  aligned := h.aligned
  not_free hmem := h.not_free (hsub hmem)
  tab_ne va hp := by
    obtain ⟨h0, hdir, hfree⟩ := h.tab_ne va hp
    exact ⟨h0, hdir, fun hmem => hfree (hsub hmem)⟩
  tab_inj := h.tab_inj

/-! ## `init_uvm` -/

/-- What `init_uvm` leaves when the frame and one table were left to take. -/
structure UserDir (kdata pgdir frame : Addr) (l : List Addr) (s₂ : Kmem) : Prop where
  free : FreeList s₂ l
  dir : DirOk s₂.mem pgdir l
  pde : ∀ va, Present s₂.mem pgdir va →
    pdeOf s₂.mem pgdir va = v2p (tabOf s₂.mem pgdir va) ||| dirFlags
  pte : ∀ va, pteOf s₂.mem pgdir va =
    if va.toNat < 4096 then mappedPte 0 (v2p frame) (pteW ||| pteU) va else kernelPte kdata va
  not_table : ∀ va, Present s₂.mem pgdir va → tabOf s₂.mem pgdir va ≠ frame

section InitUvm
variable {kdata pgdir frame tab : Addr} {s s₁ : Kmem} {l rest : List Addr}

/-- `m` is the memory with the page `frame`, off the free list, cleared. -/
structure Cleared (pgdir frame : Addr) (rest : List Addr) (s : Kmem) (m : Mem) : Prop where
  outside : SameOutside frame s.mem m
  zero : ∀ x, pgRoundDown x = frame → m x = 0
  pde : ∀ va, pdeOf m pgdir va = pdeOf s.mem pgdir va
  pte : ∀ va, pteOf m pgdir va = pteOf s.mem pgdir va
  free : FreeList ⟨m, runNext s.mem frame⟩ rest
  dir : DirOk m pgdir rest
  not_free : frame ∉ rest
  ne : frame ≠ pgdir
  tab_ne : ∀ va, Present m pgdir va → tabOf m pgdir va ≠ frame

theorem cleared_memset (hl : FreeList s (frame :: rest)) (hd : DirOk s.mem pgdir (frame :: rest)) :
    Cleared pgdir frame rest s (memset frame 0 pgSize s.mem).2 := by
  have hpage := hl.aligned frame List.mem_cons_self
  have h0 : frame ≠ 0 := hl.ne_zero List.mem_cons_self
  have hnot : frame ∉ rest := (List.nodup_cons.mp hl.nodup).1
  have hne : frame ≠ pgdir := fun he => hd.not_free (he ▸ List.mem_cons_self)
  have htab : ∀ va, Present s.mem pgdir va → tabOf s.mem pgdir va ≠ frame := fun va hp he =>
    (hd.tab_ne va hp).2.2 (he ▸ List.mem_cons_self)
  have hclear := sameOutside_memset hpage h0 0 s.mem
  obtain ⟨hpde, hpte⟩ := hd.pteOf_outside hclear hne htab
  refine ⟨hclear, fun x hx => ?_, hpde, hpte, hl.tail.write hclear hnot,
    (hd.mono (List.subset_cons_self _ _)).congr hpde, hnot, hne, fun va hp => ?_⟩
  · rw [memset_apply h0, pgSize_toNat, if_pos ((pgRoundDown_eq_iff hpage).mp hx)]
    rfl
  · rw [tabOf_congr (hpde va)]
    exact htab va ((present_congr (hpde va)).mp hp)

/-- Nor do tables taken later lie in it. -/
theorem Cleared.tab_ne_frame {m : Mem} {s₂ : Kmem} {l₂ : List Addr}
    (h : Cleared pgdir frame rest s m) (hext : Extends pgdir ⟨m, runNext s.mem frame⟩ rest s₂ l₂)
    (va : Addr) (hp : Present s₂.mem pgdir va) : tabOf s₂.mem pgdir va ≠ frame := by
  intro he
  rcases hext.tab_cases hp with ⟨hold, heq⟩ | hmem
  · rw [heq] at he
    exact h.tab_ne va hold he
  · exact h.not_free (he ▸ hmem)

/-- The state after `init_uvm` has cleared the frame and mapped it. -/
theorem mapUser_ok (hlo : kernLink < kdata) (hhi : kdata < p2v physTop)
    (hk : KernelDir kdata pgdir s l s₁)
    (hrest : l.drop 65 = frame :: tab :: rest) :
    ∃ s₂, mapPages pgdir 0 pgSize (v2p frame) (pteW ||| pteU)
        { mem := (memset frame 0 pgSize s₁.mem).2, freelist := runNext s₁.mem frame } =
          .ok (0, s₂) ∧
      UserDir kdata pgdir frame rest s₂ ∧
      (∀ x, pgRoundDown x = frame → s₂.mem x = 0) ∧
      ∀ x, pgRoundDown x ∉ l → s₂.mem x = s₁.mem x := by
  have hcleared := cleared_memset (hrest ▸ hk.free) (hrest ▸ hk.dir)
  have hpde := hcleared.pde
  have hpte := hcleared.pte
  generalize (memset frame 0 pgSize s₁.mem).2 = m at hcleared hpde hpte ⊢
  have hdirs : dirs m pgdir = kernelDirs := by
    rw [dirs_congr hpde, hk.present]
  have hlow : ∀ va : Addr, va.toNat < 4096 → pteOf m pgdir va &&& pteP = 0 := fun va hva => by
    rw [hpte, hk.pte, kernelPte_low hlo hhi (by omega)]
    exact BitVec.zero_and
  have hroom : (dirs m pgdir ∪ Finset.Icc (0 / 2 ^ 22) ((0 + 4096 - 1) / 2 ^ 22)).card ≤
      (dirs m pgdir).card + (tab :: rest).length := by
    refine (Finset.card_union_le _ _).trans (Nat.add_le_add_left ?_ _)
    simp
  obtain ⟨s₂, l₂, hmap, hext, hpte₂, hdirs₂⟩ := mapPages_ok hcleared.free hcleared.dir
    (show PageAligned 0 by decide) (show pgSize.toNat = (0 + 1) * 4096 from rfl) (by decide)
    (fun va _ hva => hlow va (by simpa using hva)) hroom (v2p frame) (pteW ||| pteU)
  have hrest' : rest = l₂ := by
    symm
    have hadd : (dirs s₂.mem pgdir).card = (dirs m pgdir).card + 1 := by
      have hzero : 0 ∉ dirs m pgdir := by
        simp [hdirs, kernelDirs]
      rw [← Finset.card_insert_of_notMem hzero, Finset.insert_eq, Finset.union_comm]
      exact congrArg Finset.card hdirs₂
    have hcount : l₂.length + (dirs s₂.mem pgdir).card =
      (tab :: rest).length + (dirs m pgdir).card := hext.count
    rw [List.length_cons] at hcount
    rw [List.suffix_iff_eq_drop.mp hext.suffix, List.length_cons,
      show rest.length + 1 - l₂.length = 1 by omega]
    rfl
  subst hrest'
  refine ⟨s₂, hmap, ⟨hext.free, hext.dir, fun va hp => ?_, fun va => ?_, hcleared.tab_ne_frame hext⟩,
    fun x hx => ?_, fun x hx => ?_⟩
  · by_cases hold : Present m pgdir va
    · have heq := (hext.pde va hold).trans (hpde va)
      rw [tabOf_congr heq, heq]
      exact (hk.pde va ((present_congr (hpde va)).mp hold)).2
    · exact (hext.fresh va hold hp).2
  · rw [hpte₂, hpte, hk.pte]
    simp
  · have hx₂ : s₂.mem x = m x := by
      refine hext.frame x (hx ▸ hcleared.ne) (hx ▸ hcleared.not_free) fun va hp => ?_
      rw [hx]
      exact hcleared.tab_ne va hp
    rw [hx₂, hcleared.zero x hx]
  · have hsub : frame :: tab :: rest ⊆ l := hrest ▸ List.drop_subset 65 l
    have hx₂ : s₂.mem x = m x := by
      refine hext.frame x (fun he => hx (he ▸ hk.page))
        (fun hmem => hx (hsub (List.mem_cons_of_mem frame hmem))) fun va hp he => hx ?_
      rw [← he, tabOf_congr (hpde va)]
      exact (hk.pde va ((present_congr (hpde va)).mp hp)).1
    exact hx₂.trans (hcleared.outside x fun he => hx (he ▸ hsub List.mem_cons_self))

end InitUvm

/-- A code image of `size` bytes at `init`, outside the free pages. -/
structure CodeImage (init : Addr) (size : Word) (l : List Addr) : Prop where
  page : size ≤ pgSize
  not_null : init ≠ 0
  fits : init.toNat + size.toNat ≤ 2 ^ 32
  apart : ∀ i : Addr, i.toNat < size.toNat → pgRoundDown (init + i) ∉ l

/-- A directory whose only opening to user mode is the first page, held by `frame` alone, with
`size` bytes of `code` in it. -/
structure UserSpace (m : Mem) (pgdir frame : Addr) (code : Addr → Byte) (size : Word) : Prop where
  reachable : ∀ va, UserReachable m pgdir va ↔ va.toNat < 4096
  page : ∀ va : Addr, va.toNat < 4096 → translate m pgdir va = some ⟨v2p frame + va, true, true⟩
  not_dir : frame ≠ pgdir
  not_table : ∀ va, Present m pgdir va → tabOf m pgdir va ≠ frame
  alone : ∀ va : Addr, 4096 ≤ va.toNat → va < kernBase → translate m pgdir va = none
  contents : ∀ i : Addr, i.toNat < 4096 → m (frame + i) = if i.toNat < size.toNat then code i else 0

/-- Writes into the frame leave the tables alone. -/
theorem UserDir.write_frame {kdata pgdir frame : Addr} {l : List Addr} {s : Kmem} {m : Mem}
    (h : UserDir kdata pgdir frame l s) (hm : SameOutside frame s.mem m) (hne : frame ≠ pgdir)
    (hnot : frame ∉ l) : UserDir kdata pgdir frame l { s with mem := m } := by
  obtain ⟨hpde, hpte⟩ := h.dir.pteOf_outside hm hne h.not_table
  refine ⟨h.free.write hm hnot, h.dir.congr hpde, fun va hp => ?_, fun va => ?_, fun va hp => ?_⟩
  · rw [tabOf_congr (hpde va), hpde va]
    exact h.pde va ((present_congr (hpde va)).mp hp)
  · exact (hpte va).trans (h.pte va)
  · rw [tabOf_congr (hpde va)]
    exact h.not_table va ((present_congr (hpde va)).mp hp)

theorem CodeImage.copy {init frame : Addr} {size : Word} {l : List Addr}
    (himg : CodeImage init size l) (hpage : PageAligned frame) (h0 : frame ≠ 0) (m : Mem) {i : Addr}
    (hi : i.toNat < 4096) : (memmove frame init size m).2 (frame + i) =
      if i.toNat < size.toNat then m (init + i) else m (frame + i) := by
  have hsize : size.toNat ≤ 4096 := himg.page
  have hend : frame.toNat + 4096 ≤ 2 ^ 32 := by
    have := frame.isLt
    unfold PageAligned at hpage
    omega
  have haddr : (frame + i).toNat = frame.toNat + i.toNat := by bv_omega
  have hoff : frame + i - frame = i := by
    rw [BitVec.add_comm, BitVec.add_sub_cancel]
  rw [memmove_apply h0 himg.not_null size (by omega) himg.fits, haddr, hoff]
  by_cases hin : i.toNat < size.toNat
  · rw [if_pos (by omega), if_pos hin]
  · rw [if_neg (by omega), if_neg hin]

/-- `init_uvm` after a `setup_kvm` that left two pages. -/
theorem initUvm_ok {kdata pgdir frame tab init : Addr} {size : Word} {s s₁ : Kmem}
    {l rest : List Addr} (hlo : kernLink < kdata) (hhi : kdata < p2v physTop)
    (hk : KernelDir kdata pgdir s l s₁) (hrest : l.drop 65 = frame :: tab :: rest)
    (himg : CodeImage init size l) :
    ∃ s₃, initUvm pgdir init size s₁ = .ok s₃ ∧ UserDir kdata pgdir frame rest s₃ ∧
      ∀ i : Addr, i.toNat < 4096 →
        s₃.mem (frame + i) = if i.toNat < size.toNat then s.mem (init + i) else 0 := by
  obtain ⟨s₂, hmap, hud, hzero, houtside⟩ := mapUser_ok hlo hhi hk hrest
  have hfree := hk.free
  rw [hrest] at hfree
  have hpage := hfree.aligned frame List.mem_cons_self
  have h0 : frame ≠ 0 := hfree.ne_zero List.mem_cons_self
  have hnot : frame ∉ rest := fun hmem =>
    (List.nodup_cons.mp hfree.nodup).1 (List.mem_cons_of_mem tab hmem)
  have hne : frame ≠ pgdir := fun he => by
    have hdir := hk.dir.not_free
    rw [hrest] at hdir
    exact hdir (he ▸ List.mem_cons_self)
  have hout := sameOutside_memmove hpage init himg.page s₂.mem
  refine ⟨{ s₂ with mem := (memmove frame init size s₂.mem).2 }, ?_,
    hud.write_frame hout hne hnot, fun i hi => ?_⟩
  · unfold initUvm
    simp only [hfree.kalloc_cons]
    rw [if_neg (BitVec.not_lt.mpr himg.page), hmap]
    rfl
  · show (memmove frame init size s₂.mem).2 (frame + i) = _
    rw [himg.copy hpage h0 s₂.mem hi]
    by_cases hin : i.toNat < size.toNat
    · have hpage' := himg.apart i hin
      rw [if_pos hin, if_pos hin, houtside _ hpage', hk.frame _ hpage']
    · rw [if_neg hin, if_neg hin]
      apply hzero
      rw [pgRoundDown_eq_iff hpage, BitVec.add_comm, BitVec.add_sub_cancel]
      exact hi

/-- **A new process is isolated.** After `setup_kvm` and `init_uvm` user mode reaches the first
page and nothing else; that page holds the code image followed by zeros and is no part of the
tables, and the kernel's half is as `setup_kvm` left it. -/
theorem initUvm_isolated {kdata : Addr} (hal : PageAligned kdata) (hlo : kernLink < kdata)
    (hhi : kdata < p2v physTop) {s : Kmem} {l : List Addr} (hl : FreeList s l)
    (hlen : 67 ≤ l.length) {init : Addr} {size : Word} (himg : CodeImage init size l) :
    ∃ pgdir s₁ s₂ frame, setupKvm (initKmappings kdata) s = .ok (pgdir, s₁) ∧
      FreeList s₁ (frame :: l.drop 66) ∧
      initUvm pgdir init size s₁ = .ok s₂ ∧
      FreeList s₂ (l.drop 67) ∧
      UserSpace s₂.mem pgdir frame (fun i => s.mem (init + i)) size ∧
      (∀ va, kernBase ≤ va → translate s₂.mem pgdir va = translate s₁.mem pgdir va) ∧
      ∀ va, kernLink ≤ va → va < kdata →
        translate s₂.mem pgdir va = some ⟨v2p va, false, false⟩ := by
  obtain ⟨pgdir, s₁, hsetup, hk⟩ := setupKvm_ok hal hlo hhi hl (by omega)
  obtain ⟨frame, hframe⟩ : ∃ frame, l.drop 65 = frame :: l.drop 66 :=
    ⟨l.get ⟨65, by omega⟩, List.drop_eq_getElem_cons (by omega)⟩
  obtain ⟨tab, htab⟩ : ∃ tab, l.drop 66 = tab :: l.drop 67 :=
    ⟨l.get ⟨66, by omega⟩, List.drop_eq_getElem_cons (by omega)⟩
  have hfree := hk.free
  have hdir := hk.dir
  rw [hframe] at hfree hdir
  have hne : frame ≠ pgdir := fun he => hdir.not_free (he ▸ List.mem_cons_self)
  have hpage := hfree.aligned frame List.mem_cons_self
  obtain ⟨s₂, hinit, hud, hbytes⟩ := initUvm_ok hlo hhi hk (htab ▸ hframe) himg
  have htranslate : ∀ va : Addr, translate s₂.mem pgdir va =
      if va.toNat < 4096 then some ⟨v2p frame + va, true, true⟩ else kernelLayout kdata va := by
    intro va
    rw [translate_eq (hud.pde va), hud.pte]
    split_ifs with hva
    · rw [pteTranslation_mappedPte (by decide) hpage.v2p (by decide),
        show va - 0 = va from BitVec.sub_zero va]
      rfl
    · exact kernelPte_translation hal hlo hhi va
  have hkernel : ∀ va : Addr, kernBase ≤ va →
      translate s₂.mem pgdir va = kernelLayout kdata va := by
    intro va hva
    have hva' : 0x80000000 ≤ va.toNat := hva
    rw [htranslate, if_neg (by omega)]
  refine ⟨pgdir, s₁, s₂, frame, hsetup, hfree, hinit, hud.free, ⟨fun va => ?_, fun va hva => ?_, hne,
    hud.not_table, fun va hlow hhigh => ?_, hbytes⟩, fun va hva => ?_, fun va hlow hhigh => ?_⟩
  · rw [userReachable_iff (hud.pde va), hud.pte]
    split_ifs with hva
    · have huser : mappedPte 0 (v2p frame) (pteW ||| pteU) va &&& pteU ≠ 0 := by
        rw [mappedPte_flag (by decide) hpage.v2p (by decide) (by decide)]
        decide
      exact iff_of_true ⟨mappedPte_present _ (by decide) hpage.v2p va, huser⟩ hva
    · rw [kernelPte_user hal]
      simp [hva]
  · rw [htranslate, if_pos hva]
  · have hhigh' : va.toNat < 0x80000000 := hhigh
    rw [htranslate, if_neg (by omega), ← kernelPte_translation hal hlo hhi,
      kernelPte_low hlo hhi hhigh']
    rfl
  · rw [hkernel va hva, hk.translate hal hlo hhi]
  · have hbase : kernBase ≤ va := BitVec.le_trans (show kernBase ≤ kernLink by decide) hlow
    rw [hkernel va hbase, kernelLayout_text hhi hlow hhigh]

/-- 35 bytes of kernel text, below the free pages. -/
theorem codeImage_text {n : Nat} (hn : n ≤ 1024) : CodeImage 0x80105000 35 (somePages n) where
  page := by decide
  not_null := by decide
  fits := by decide
  apart i hi := by
    have hpage : pgRoundDown (0x80105000 + i) = 0x80105000 := by
      have hi' : i.toNat < 35 := hi
      apply BitVec.eq_of_toNat_eq
      rw [pgRoundDown_toNat, BitVec.toNat_add]
      show (0x80105000 + i.toNat) % 2 ^ 32 / 4096 * 4096 = 0x80105000
      omega
    rw [hpage]
    intro hmem
    obtain ⟨j, hj, he⟩ := List.mem_map.mp hmem
    have hnat := congrArg BitVec.toNat he
    rw [List.mem_reverse, List.mem_range] at hj
    rw [BitVec.toNat_ofNat] at hnat
    change _ = 0x80105000 at hnat
    omega

theorem initUvm_isolated_text : ∃ pgdir s₁ s₂ frame,
    setupKvm (initKmappings 0x80110000) (someFree 70) = .ok (pgdir, s₁) ∧
      FreeList s₁ (frame :: (somePages 70).drop 66) ∧
      initUvm pgdir 0x80105000 35 s₁ = .ok s₂ ∧
      FreeList s₂ ((somePages 70).drop 67) ∧
      UserSpace s₂.mem pgdir frame (fun i => (someFree 70).mem (0x80105000 + i)) 35 ∧
      (∀ va, kernBase ≤ va → translate s₂.mem pgdir va = translate s₁.mem pgdir va) ∧
      ∀ va, kernLink ≤ va → va < 0x80110000 →
        translate s₂.mem pgdir va = some ⟨v2p va, false, false⟩ :=
  initUvm_isolated (by decide) (by decide) (by decide) (someFree_ok 70 (by decide)) (by decide)
    (codeImage_text (by decide))

end TuixOS
