import TuixOS.MapRange
import TuixOS.BootPool

/-!
# `init_uvm` when memory runs out

`init_uvm` takes two pages: the frame, and the table for directory entry 0, which `map_pages` takes
inside `walk_pgdir`. It looks at neither result. `memset` and `memmove` do nothing at the null
pointer, so with fewer than two free pages the call returns all the same, and nothing is mapped
(`initUvm_nil`, `initUvm_one`). It never maps a page it did not take.
-/

namespace TuixOS

open Lib

/-- Virtual page 0 is open to user mode and holds the image, in a page that left the free list. -/
structure ImageMapped (pgdir init : Addr) (size : Word) (s : Kmem) (l : List Addr) (s' : Kmem)
    (l' : List Addr) (frame : Addr) : Prop where
  taken : frame ∈ l ∧ frame ∉ l'
  page : ∀ va : Addr, va.toNat < 4096 →
    translate s'.mem pgdir va = some ⟨v2p frame + va, true, true⟩
  image : ∀ i : Addr, i.toNat < size.toNat → s'.mem (frame + i) = s.mem (init + i)

/-- Every entry that has changed points to a page that left the free list. -/
def MapsOnlyTaken (pgdir : Addr) (s : Kmem) (l : List Addr) (s' : Kmem) (l' : List Addr) : Prop :=
  ∀ va, pteOf s'.mem pgdir va ≠ pteOf s.mem pgdir va →
    p2v (pteAddr (pteOf s'.mem pgdir va)) ∈ l ∧ p2v (pteAddr (pteOf s'.mem pgdir va)) ∉ l'

/-- A call of `init_uvm` panics or loads the image, and maps nothing but what it took. -/
def LoadsImage (pgdir init : Addr) (size : Word) (s : Kmem) (l : List Addr) : Prop :=
  ∀ s', initUvm pgdir init size s = .ok s' → ∃ l', FreeList s' l' ∧
    MapsOnlyTaken pgdir s l s' l' ∧ ∃ frame, ImageMapped pgdir init size s l s' l' frame

section Calls
variable {pgdir frame tab init : Addr} {size : Word} {s : Kmem} {rest : List Addr}

theorem mapPages_null (hl : FreeList s []) (habs : ¬Present s.mem pgdir 0) (pa perm : Word) :
    mapPages pgdir 0 pgSize pa perm s = .ok (-1, s) := by
  have hround : pgRoundDown 0 = 0 := rfl
  unfold mapPages
  rw [hround]
  exact mapPagesLoop_null hl habs _ pa perm (2 ^ 20 - 1)

/-- No page: `kalloc` returns the null pointer, and everything after it does nothing. -/
theorem initUvm_nil (hl : FreeList s []) (habs : ¬Present s.mem pgdir 0) (hsize : size ≤ pgSize) :
    initUvm pgdir init size s = .ok s := by
  have hset : (memset 0 0 pgSize s.mem).2 = s.mem := rfl
  have hmove : (memmove 0 init size s.mem).2 = s.mem := rfl
  unfold initUvm
  simp only [hl.kalloc_nil, hset]
  rw [if_neg (BitVec.not_lt.mpr hsize), mapPages_null hl habs]
  exact congrArg Except.ok (congrArg (Kmem.mk · s.freelist) hmove)

/-- One page: it becomes the frame, and there is none for the table. -/
theorem initUvm_one (hl : FreeList s [frame]) (hd : DirOk s.mem pgdir [frame])
    (habs : ¬Present s.mem pgdir 0) (hsize : size ≤ pgSize) :
    ∃ s', initUvm pgdir init size s = .ok s' ∧ FreeList s' [] ∧ SameOutside frame s.mem s'.mem := by
  have hpage := hl.aligned frame List.mem_cons_self
  have hcleared := cleared_memset hl hd
  generalize hm : (memset frame 0 pgSize s.mem).2 = m at hcleared
  have habs' : ¬Present m pgdir 0 := fun hp => habs ((present_congr (hcleared.pde 0)).mp hp)
  have hmove := sameOutside_memmove hpage init hsize m
  refine ⟨⟨(memmove frame init size m).2, runNext s.mem frame⟩, ?_, ?_, hcleared.outside.trans hmove⟩
  · unfold initUvm
    simp only [hl.kalloc_cons, hm]
    rw [if_neg (BitVec.not_lt.mpr hsize), mapPages_null hcleared.free habs']
    rfl
  · exact hcleared.free.write hmove List.not_mem_nil

theorem tablesNeeded_one_le (m : Mem) (d start : Addr) : tablesNeeded m d start 1 ≤ 1 := by
  have himage : (tablesFor start 1).card ≤ (Finset.range 1).card := Finset.card_image_le
  exact (Finset.card_le_card Finset.sdiff_subset).trans himage

/-- Mapping page 0 in a directory without a table for it. -/
theorem mapFirstPage (hl : FreeList s (tab :: rest)) (hd : DirOk s.mem pgdir (tab :: rest))
    (habs : ¬Present s.mem pgdir 0) (pa perm : Word) :
    ∃ s' l', mapPages pgdir 0 pgSize pa perm s = .ok (0, s') ∧
      Mapped pgdir 0 pa perm s (tab :: rest) 1 s' l' := by
  have hclear : ∀ k < pageCount 0 pgSize, ¬Occupied s.mem pgdir 0 k := by
    intro k hk
    obtain rfl : k = 0 := Nat.lt_one_iff.mp hk
    have hpte : pteOf s.mem pgdir 0 = 0 := if_neg habs
    show ¬pteOf s.mem pgdir 0 &&& pteP ≠ 0
    rw [hpte]
    decide
  have hroom : tablesNeeded s.mem pgdir (pgRoundDown 0) (pageCount 0 pgSize) ≤
      (tab :: rest).length := by
    refine (tablesNeeded_one_le s.mem pgdir _).trans ?_
    simp
  exact mapPages_whole hl hd (by decide) (by decide) hclear hroom pa perm

/-- What page 0 translates to once it has been mapped. -/
theorem Mapped.translate_first {pa perm : Word} {s' : Kmem} {l l' : List Addr}
    (h : Mapped pgdir 0 pa perm s l 1 s' l') (habs : ¬Present s.mem pgdir 0)
    (hpa : PageAligned pa) (hperm : (perm ||| pteP).toNat < 4096) {va : Addr}
    (hva : va.toNat < 4096) :
    translate s'.mem pgdir va = some ⟨pa + va, perm &&& pteW ≠ 0, perm &&& pteU ≠ 0⟩ := by
  have hidx : pdx va = pdx 0 := by
    rw [pdx_eq_iff]
    show va.toNat / 2 ^ 22 = 0
    omega
  have habs' : ¬Present s.mem pgdir va := by rwa [Present, pdeOf_congr hidx]
  have hin : InPages 0 1 va := by
    show 0 ≤ va.toNat / 4096 ∧ va.toNat / 4096 < 0 + 1
    omega
  rw [translate_eq fun hp => (h.ext.fresh va habs' hp).2, h.pte, if_pos hin,
    pteTranslation_mappedPte (by decide) hpa hperm, show va - 0 = va from BitVec.sub_zero va]

/-- The entry then points to the frame. -/
theorem Mapped.entry_first {perm : Word} {s' : Kmem} {l l' : List Addr}
    (h : Mapped pgdir 0 (v2p frame) perm s l 1 s' l') (hpage : PageAligned frame)
    (hperm : (perm ||| pteP).toNat < 4096) {va : Addr} (hva : InPages 0 1 va) :
    p2v (pteAddr (pteOf s'.mem pgdir va)) = frame := by
  have hzero : va.toNat / 4096 = (0 : Addr).toNat / 4096 + 0 := by
    obtain ⟨-, hhi⟩ := hva
    change va.toNat / 4096 < 0 + 1 at hhi
    show va.toNat / 4096 = 0
    omega
  rw [h.pte, if_pos hva, mappedPte_addr (by decide) hpage.v2p hperm hzero]
  exact (congrArg p2v (BitVec.add_zero _)).trans (p2v_v2p frame)

/-- Two pages: the frame is mapped through the new table and the image is in it. -/
theorem initUvm_two (hl : FreeList s (frame :: tab :: rest))
    (hd : DirOk s.mem pgdir (frame :: tab :: rest)) (habs : ¬Present s.mem pgdir 0)
    (himg : CodeImage init size (frame :: tab :: rest))
    (hout : ∀ i : Addr, i.toNat < size.toNat → ¬Owns s.mem pgdir (pgRoundDown (init + i))) :
    ∃ s' l', initUvm pgdir init size s = .ok s' ∧ FreeList s' l' ∧
      MapsOnlyTaken pgdir s (frame :: tab :: rest) s' l' ∧
      ImageMapped pgdir init size s (frame :: tab :: rest) s' l' frame := by
  have hpage := hl.aligned frame List.mem_cons_self
  have h0 : frame ≠ 0 := hl.ne_zero List.mem_cons_self
  have hsize : size.toNat ≤ 4096 := himg.page
  -- the frame is cleared
  have hcleared := cleared_memset hl hd
  have hpde := hcleared.pde
  generalize hm : (memset frame 0 pgSize s.mem).2 = m at hcleared hpde
  have habs' : ¬Present m pgdir 0 := fun hp => habs ((present_congr (hpde 0)).mp hp)
  -- it is mapped
  obtain ⟨s₂, l₂, hmap, hmapped⟩ := mapFirstPage hcleared.free hcleared.dir habs' (v2p frame) (pteW ||| pteU)
  have hext := hmapped.ext
  have hgone : frame ∉ l₂ := fun hmem => hcleared.not_free (hext.mem_of_mem hmem)
  -- and filled
  have hmove := sameOutside_memmove hpage init himg.page s₂.mem
  obtain ⟨hpde₃, hpte₃⟩ := hext.dir.pteOf_outside hmove hcleared.ne
    (hcleared.tab_ne_frame hext)
  refine ⟨{ s₂ with mem := (memmove frame init size s₂.mem).2 }, l₂, ?_,
    hext.free.write hmove hgone, fun va hva => ?_,
    ⟨List.mem_cons_self, hgone⟩, fun va hva => ?_, fun i hi => ?_⟩
  · unfold initUvm
    simp only [hl.kalloc_cons, hm]
    rw [if_neg (BitVec.not_lt.mpr himg.page), hmap]
    rfl
  · have hin : InPages 0 1 va := by
      by_contra hno
      exact hva ((hpte₃ va).trans ((hmapped.pte va).trans ((if_neg hno).trans (hcleared.pte va))))
    rw [hpte₃, hmapped.entry_first hpage (by decide) hin]
    exact ⟨List.mem_cons_self, hgone⟩
  · rw [translate_congr (hpde₃ va) (hpte₃ va),
      hmapped.translate_first habs' hpage.v2p (by decide) hva]
    rfl
  · have hfar := himg.apart i hi
    have hsrc : s₂.mem (init + i) = m (init + i) := by
      refine hext.frame _ (fun he => hout i hi (Or.inl he)) (fun hmem =>
        hfar (List.mem_cons_of_mem frame hmem)) fun va hp he => hout i hi (Or.inr ⟨va, ?_, ?_⟩)
      · exact (present_congr (hpde va)).mp hp
      · exact (tabOf_congr (hpde va)).symm.trans he
    show (memmove frame init size s₂.mem).2 (frame + i) = _
    rw [himg.copy hpage h0 s₂.mem (lt_of_lt_of_le hi hsize), if_pos hi, hsrc]
    exact hcleared.outside _ fun he => hfar (he ▸ List.mem_cons_self)

/-- With fewer than two pages page 0 stays unmapped. -/
theorem initUvm_unmapped {l : List Addr} (hl : FreeList s l) (hd : DirOk s.mem pgdir l)
    (habs : ¬Present s.mem pgdir 0) (hsize : size ≤ pgSize) (hshort : l.length < 2) :
    ∃ s', initUvm pgdir init size s = .ok s' ∧ FreeList s' [] ∧
      (∀ va, pteOf s'.mem pgdir va = pteOf s.mem pgdir va) ∧ translate s'.mem pgdir 0 = none := by
  match l, hshort with
  | [], _ => exact ⟨s, initUvm_nil hl habs hsize, hl, fun _ => rfl, translate_absent habs⟩
  | [frame], _ =>
    obtain ⟨s', hrun, hfree, hsame⟩ := initUvm_one hl hd habs hsize
    have hne : frame ≠ pgdir := fun he => hd.not_free (he ▸ List.mem_cons_self)
    obtain ⟨hpde, hpte⟩ := hd.pteOf_outside hsame hne fun va hp he =>
      (hd.tab_ne va hp).2.2 (he ▸ List.mem_cons_self)
    exact ⟨s', hrun, hfree, hpte,
      translate_absent fun hp => habs ((present_congr (hpde 0)).mp hp)⟩

theorem loadsImage_iff {l : List Addr} (hl : FreeList s l) (hd : DirOk s.mem pgdir l)
    (habs : ¬Present s.mem pgdir 0) (himg : CodeImage init size l)
    (hout : ∀ i : Addr, i.toNat < size.toNat → ¬Owns s.mem pgdir (pgRoundDown (init + i))) :
    (∃ s' l', initUvm pgdir init size s = .ok s' ∧ FreeList s' l' ∧
      MapsOnlyTaken pgdir s l s' l') ∧
    (LoadsImage pgdir init size s l ↔ 2 ≤ l.length) := by
  rcases Nat.lt_or_ge l.length 2 with hshort | hlen
  · obtain ⟨s', hrun, hfree, hpte, hnone⟩ := initUvm_unmapped hl hd habs himg.page hshort
    refine ⟨⟨s', [], hrun, hfree, fun va hva => absurd (hpte va) hva⟩, fun hload => ?_,
      fun hlen => absurd hlen (not_le.mpr hshort)⟩
    obtain ⟨l', -, -, frame, himage⟩ := hload s' hrun
    have hpage := himage.page 0 (by decide)
    rw [hnone] at hpage
    cases hpage
  · match l, hlen with
    | frame :: tab :: rest, _ =>
      obtain ⟨s', l', hrun, hfree, honly, himage⟩ := initUvm_two hl hd habs himg hout
      refine ⟨⟨s', l', hrun, hfree, honly⟩, fun _ => by simp, fun _ s'' hrun' => ?_⟩
      obtain rfl : s' = s'' := Except.ok.inj (hrun.symm.trans hrun')
      exact ⟨l', hfree, honly, frame, himage⟩

end Calls

/-! ## A directory of `setup_kvm` -/

section Setup
variable {kdata pgdir : Addr} {s₀ s₁ s : Kmem} {l₀ l : List Addr}

/-- Until its pages are written or freed, the directory is as `setup_kvm` left it: well-formed, and
without a table for the first page. -/
theorem setupKvm_dir (hal : PageAligned kdata) (hlo : kernLink < kdata) (hhi : kdata < p2v physTop)
    (hl₀ : FreeList s₀ l₀) (hsetup : setupKvm (initKmappings kdata) s₀ = .ok (pgdir, s₁))
    (hnull : pgdir ≠ 0) (hsame : SameDir s₁.mem s.mem pgdir)
    (hapart : ∀ p, Owns s.mem pgdir p → p ∉ l) :
    DirOk s.mem pgdir l ∧ ¬Present s.mem pgdir 0 := by
  have hneeds := setupKvm_needs hal hlo hhi hl₀ hsetup hnull
  obtain ⟨d, s', hsetup', hk⟩ := setupKvm_ok hal hlo hhi hl₀ hneeds
  obtain ⟨rfl, rfl⟩ := Prod.mk.inj (Except.ok.inj (hsetup'.symm.trans hsetup))
  have hpde := hsame.pdeOf hk.dir.aligned
  have howns := hsame.owns_iff hk.dir.aligned
  refine ⟨DirOk.congr ⟨hk.dir.aligned, hapart d (Or.inl rfl), fun va hp => ?_, hk.dir.tab_inj⟩ hpde,
    fun hp => ?_⟩
  · obtain ⟨h0, hdir, -⟩ := hk.dir.tab_ne va hp
    exact ⟨h0, hdir, hapart _ ((howns _).mpr (Or.inr ⟨va, hp, rfl⟩))⟩
  · have hmem : (0 : Addr).toNat / 2 ^ 22 ∈ kernelDirs :=
      hk.present ▸ mem_dirs.mpr ((present_congr (hpde 0)).mp hp)
    exact absurd hmem (by simp [kernelDirs])

/-- **`init_uvm` loads the image exactly when two pages are free.** It returns in every case and
never maps a page that it did not take; with no page or one page it returns without a mapping. -/
theorem init_uvm_loads_iff (hal : PageAligned kdata) (hlo : kernLink < kdata)
    (hhi : kdata < p2v physTop) (hl₀ : FreeList s₀ l₀)
    (hsetup : setupKvm (initKmappings kdata) s₀ = .ok (pgdir, s₁)) (hnull : pgdir ≠ 0)
    (hsame : SameDir s₁.mem s.mem pgdir) (hl : FreeList s l)
    (hapart : ∀ p, Owns s.mem pgdir p → p ∉ l) {init : Addr} {size : Word}
    (himg : CodeImage init size l)
    (hout : ∀ i : Addr, i.toNat < size.toNat → ¬Owns s.mem pgdir (pgRoundDown (init + i))) :
    (∃ s' l', initUvm pgdir init size s = .ok s' ∧ FreeList s' l' ∧
      MapsOnlyTaken pgdir s l s' l') ∧
    (LoadsImage pgdir init size s l ↔ 2 ≤ l.length) := by
  obtain ⟨hd, habs⟩ := setupKvm_dir hal hlo hhi hl₀ hsetup hnull hsame hapart
  exact loadsImage_iff hl hd habs himg hout

end Setup

/-- A directory made from `n` free pages, the kernel's text beside them. -/
theorem setupKvm_some {n : Nat} (hlow : 65 ≤ n) (hhigh : n ≤ 1024) : ∃ pgdir s₁,
    setupKvm (initKmappings 0x80110000) (someFree n) = .ok (pgdir, s₁) ∧ pgdir ≠ 0 ∧
      FreeList s₁ ((somePages n).drop 65) ∧
      (∀ p, Owns s₁.mem pgdir p → p ∉ (somePages n).drop 65) ∧
      CodeImage 0x80105000 35 ((somePages n).drop 65) ∧
      ∀ i : Addr, i.toNat < (35 : Word).toNat →
        ¬Owns s₁.mem pgdir (pgRoundDown (0x80105000 + i)) := by
  have hfree := someFree_ok n hhigh
  have hlen : (somePages n).length = n := by simp [somePages]
  have himg := codeImage_text hhigh
  obtain ⟨pgdir, s₁, hsetup, hk⟩ := setupKvm_ok (show PageAligned 0x80110000 by decide) (by decide)
    (by decide) hfree (by rw [hlen]; exact hlow)
  refine ⟨pgdir, s₁, hsetup, hfree.ne_zero hk.page, hk.free, fun p => hk.dir.owns_not_free,
    ⟨himg.page, himg.not_null, himg.fits, fun i hi hmem => himg.apart i hi (List.mem_of_mem_drop hmem)⟩,
    fun i hi hown => himg.apart i hi (hk.owns_mem hown)⟩

/-- Two pages are left. -/
theorem init_uvm_loads_text : ∃ pgdir s₁,
    setupKvm (initKmappings 0x80110000) (someFree 67) = .ok (pgdir, s₁) ∧
      LoadsImage pgdir 0x80105000 35 s₁ ((somePages 67).drop 65) := by
  obtain ⟨pgdir, s₁, hsetup, hnull, hl, hapart, himg, hout⟩ :=
    setupKvm_some (show 65 ≤ 67 by decide) (by decide)
  refine ⟨pgdir, s₁, hsetup, (init_uvm_loads_iff (by decide) (by decide) (by decide)
    (someFree_ok 67 (by decide)) hsetup hnull (fun _ _ => rfl) hl hapart himg hout).2.mpr ?_⟩
  simp [somePages]

/-- One page is left: `init_uvm` returns with page 0 unmapped. -/
theorem init_uvm_one_page : ∃ pgdir s₁ s₂,
    setupKvm (initKmappings 0x80110000) (someFree 66) = .ok (pgdir, s₁) ∧
      initUvm pgdir 0x80105000 35 s₁ = .ok s₂ ∧ translate s₂.mem pgdir 0 = none ∧
      ¬LoadsImage pgdir 0x80105000 35 s₁ ((somePages 66).drop 65) := by
  obtain ⟨pgdir, s₁, hsetup, hnull, hl, hapart, himg, hout⟩ :=
    setupKvm_some (show 65 ≤ 66 by decide) (by decide)
  have hshort : ((somePages 66).drop 65).length < 2 := by simp [somePages]
  obtain ⟨hd, habs⟩ := setupKvm_dir (by decide) (by decide) (by decide)
    (someFree_ok 66 (by decide)) hsetup hnull (fun _ _ => rfl) hapart
  obtain ⟨s₂, hrun, -, -, hnone⟩ := initUvm_unmapped hl hd habs himg.page hshort
  refine ⟨pgdir, s₁, s₂, hsetup, hrun, hnone, fun hload => ?_⟩
  exact absurd ((loadsImage_iff hl hd habs himg hout).2.mp hload) (not_le.mpr hshort)

end TuixOS
