import TuixOS.PageTable
import Mathlib.Order.Interval.Finset.Nat

/-!
# `walk_pgdir` and `map_pages`

`Extends pgdir s l s' l'` says how the state may change while pages are mapped in `pgdir`: page
tables are taken from the front of the free list `l`, one for each directory entry that becomes
present, and nothing but the directory, its tables and the pages taken is written. It composes
(`Extends.trans`), so the loop of `map_pages` and the loop of `setup_kvm` over its calls need only
their own steps.
-/

namespace TuixOS

open Lib

/-- The directory entries that are present. -/
def dirs (m : Mem) (pgdir : Addr) : Finset Nat :=
  (Finset.range 1024).filter fun i => Present m pgdir (BitVec.ofNat 32 (i * 2 ^ 22))

theorem mem_dirs {m : Mem} {pgdir va : Addr} : va.toNat / 2 ^ 22 ∈ dirs m pgdir ↔
    Present m pgdir va := by
  have hlt := va.isLt
  have hidx : pdx (BitVec.ofNat 32 (va.toNat / 2 ^ 22 * 2 ^ 22)) = pdx va := by
    rw [pdx_eq_iff, BitVec.toNat_ofNat]
    omega
  rw [dirs, Finset.mem_filter, Finset.mem_range, Present, pdeOf_congr hidx]
  exact and_iff_right (by omega)

theorem mem_dirs_iff {m : Mem} {pgdir : Addr} {i : Nat} (hi : i < 1024) :
    i ∈ dirs m pgdir ↔ Present m pgdir (BitVec.ofNat 32 (i * 2 ^ 22)) := by
  rw [dirs, Finset.mem_filter, Finset.mem_range]
  exact and_iff_right hi

theorem dirs_lt {m : Mem} {pgdir : Addr} {i : Nat} (h : i ∈ dirs m pgdir) : i < 1024 :=
  Finset.mem_range.mp (Finset.mem_filter.mp h).1

theorem dirs_congr {m m' : Mem} {pgdir : Addr}
    (h : ∀ va, pdeOf m' pgdir va = pdeOf m pgdir va) : dirs m' pgdir = dirs m pgdir := by
  apply Finset.filter_congr
  intro i _
  exact present_congr (h _)

/-! ## How mapping changes the state -/

structure Extends (pgdir : Addr) (s : Kmem) (l : List Addr) (s' : Kmem) (l' : List Addr) :
    Prop where
  free : FreeList s' l'
  dir : DirOk s'.mem pgdir l'
  suffix : l' <:+ l
  /-- One free page for each directory entry that becomes present. -/
  count : l'.length + (dirs s'.mem pgdir).card = l.length + (dirs s.mem pgdir).card
  sub : dirs s.mem pgdir ⊆ dirs s'.mem pgdir
  pde : ∀ va, Present s.mem pgdir va → pdeOf s'.mem pgdir va = pdeOf s.mem pgdir va
  fresh : ∀ va, ¬Present s.mem pgdir va → Present s'.mem pgdir va →
    tabOf s'.mem pgdir va ∈ l ∧ pdeOf s'.mem pgdir va = v2p (tabOf s'.mem pgdir va) ||| dirFlags
  frame : ∀ x, pgRoundDown x ≠ pgdir → pgRoundDown x ∉ l →
    (∀ va, Present s.mem pgdir va → tabOf s.mem pgdir va ≠ pgRoundDown x) → s'.mem x = s.mem x

namespace Extends
variable {pgdir : Addr} {s s' s'' : Kmem} {l l' l'' : List Addr}

theorem refl (hl : FreeList s l) (hd : DirOk s.mem pgdir l) : Extends pgdir s l s l where
  free := hl
  dir := hd
  suffix := List.suffix_refl l
  count := rfl
  sub := Finset.Subset.refl _
  pde _ _ := rfl
  fresh _ habs hp := absurd hp habs
  frame _ _ _ _ := rfl

theorem present (h : Extends pgdir s l s' l') {va : Addr} (hp : Present s.mem pgdir va) :
    Present s'.mem pgdir va :=
  (present_congr (h.pde va hp)).mpr hp

theorem mem_of_mem (h : Extends pgdir s l s' l') {p : Addr} (hp : p ∈ l') : p ∈ l :=
  h.suffix.subset hp

/-- A table of the new directory is one of the old tables or a page taken from the free list. -/
theorem tab_cases (h : Extends pgdir s l s' l') {va : Addr} (hp : Present s'.mem pgdir va) :
    (Present s.mem pgdir va ∧ tabOf s'.mem pgdir va = tabOf s.mem pgdir va) ∨
      tabOf s'.mem pgdir va ∈ l := by
  by_cases hold : Present s.mem pgdir va
  · exact Or.inl ⟨hold, tabOf_congr (h.pde va hold)⟩
  · exact Or.inr (h.fresh va hold hp).1

theorem trans (h : Extends pgdir s l s' l') (h' : Extends pgdir s' l' s'' l'') :
    Extends pgdir s l s'' l'' where
  free := h'.free
  dir := h'.dir
  suffix := h'.suffix.trans h.suffix
  count := h'.count.trans h.count
  sub := h.sub.trans h'.sub
  pde va hp := (h'.pde va (h.present hp)).trans (h.pde va hp)
  fresh va habs hp := by
    by_cases hmid : Present s'.mem pgdir va
    · have heq := h'.pde va hmid
      rw [tabOf_congr heq, heq]
      exact h.fresh va habs hmid
    · obtain ⟨hmem, hpde⟩ := h'.fresh va hmid hp
      exact ⟨h.mem_of_mem hmem, hpde⟩
  frame x hdir hfree htab := by
    refine (h'.frame x hdir (fun hmem => hfree (h.mem_of_mem hmem)) fun va hp he => ?_).trans
      (h.frame x hdir hfree htab)
    rcases h.tab_cases hp with ⟨hold, heq⟩ | hmem
    · exact htab va hold (heq ▸ he)
    · exact hfree (he ▸ hmem)

end Extends

/-! ## `walk_pgdir` -/

section Walk
variable {s : Kmem} {l : List Addr} {pgdir va : Addr}

theorem walkPgdir_present (alloc : Bool) (hp : Present s.mem pgdir va) :
    walkPgdir pgdir va alloc s = (tabOf s.mem pgdir va + 4 * ptx va, s) :=
  if_pos hp

theorem walkPgdir_add {p : Addr} (hl : FreeList s (p :: l)) (habs : ¬Present s.mem pgdir va) :
    walkPgdir pgdir va true s =
      (p + 4 * ptx va, { mem := addTab s.mem pgdir va p, freelist := runNext s.mem p }) := by
  have h0 : p ≠ 0 := hl.ne_zero List.mem_cons_self
  have hpde : ¬load32 s.mem (pgdir + 4 * pdx va) &&& pteP ≠ 0 := habs
  unfold walkPgdir
  simp only [hl.kalloc_cons]
  rw [if_neg hpde, if_neg (by decide), if_neg h0, or_dirFlags]
  rfl

theorem walkPgdir_null (hl : FreeList s []) (habs : ¬Present s.mem pgdir va) :
    walkPgdir pgdir va true s = (0, s) := by
  have hpde : ¬load32 s.mem (pgdir + 4 * pdx va) &&& pteP ≠ 0 := habs
  unfold walkPgdir
  simp only [hl.kalloc_nil]
  rw [if_neg hpde, if_neg (by decide), if_pos trivial]

theorem dirs_addTab {p : Addr} (va : Addr) (hd : DirOk s.mem pgdir (p :: l)) (hp : PageAligned p) (h0 : p ≠ 0) :
    dirs (addTab s.mem pgdir va p) pgdir = insert (va.toNat / 2 ^ 22) (dirs s.mem pgdir) := by
  have hlt := va.isLt
  ext i
  rw [Finset.mem_insert]
  by_cases hi : i < 1024
  · rw [mem_dirs_iff hi, mem_dirs_iff hi, hd.present_addTab hp h0, pdx_eq_iff, BitVec.toNat_ofNat]
    apply or_congr_left
    omega
  · constructor
    · intro hmem
      exact absurd (dirs_lt hmem) hi
    · rintro (rfl | hmem)
      · omega
      · exact absurd (dirs_lt hmem) hi

/-- With the table present or a page left, `walk_pgdir` returns the entry's address. It may have
added an empty table, so every entry is as before. -/
theorem walkPgdir_ok (hl : FreeList s l) (hd : DirOk s.mem pgdir l)
    (hroom : Present s.mem pgdir va ∨ l ≠ []) :
    ∃ s' l', walkPgdir pgdir va true s = (tabOf s'.mem pgdir va + 4 * ptx va, s') ∧
      Extends pgdir s l s' l' ∧ Present s'.mem pgdir va ∧
      (∀ va', pteOf s'.mem pgdir va' = pteOf s.mem pgdir va') ∧
      dirs s'.mem pgdir = insert (va.toNat / 2 ^ 22) (dirs s.mem pgdir) := by
  by_cases hp : Present s.mem pgdir va
  · refine ⟨s, l, walkPgdir_present true hp, Extends.refl hl hd, hp, fun _ => rfl, ?_⟩
    exact (Finset.insert_eq_of_mem (mem_dirs.mpr hp)).symm
  · obtain ⟨p, l', rfl⟩ := List.exists_cons_of_ne_nil (hroom.resolve_left hp)
    have hal := hl.aligned p List.mem_cons_self
    have h0 : p ≠ 0 := hl.ne_zero List.mem_cons_self
    have hnot : p ∉ l' := (List.nodup_cons.mp hl.nodup).1
    have hdirs := dirs_addTab va hd hal h0
    have htab : tabOf (addTab s.mem pgdir va p) pgdir va = p := by
      rw [hd.tabOf_addTab hal h0, if_pos rfl]
    refine ⟨⟨addTab s.mem pgdir va p, runNext s.mem p⟩, l', ?_, ?_, ?_, ?_, hdirs⟩
    · rw [walkPgdir_add hl hp, htab]
    · refine ⟨?_, hd.addTab hal h0 hnot, List.suffix_cons p l', ?_, ?_, ?_, ?_, ?_⟩
      · have hmemset := hl.tail.write (sameOutside_memset hal h0 0 s.mem) hnot
        refine hmemset.write (sameOutside_store32 _ _ (slot_aligned hd.aligned (pdx_lt va))
          (slot_page hd.aligned (pdx_lt va))) ?_
        exact fun hmem => hd.not_free (List.mem_cons_of_mem p hmem)
      · have habs : va.toNat / 2 ^ 22 ∉ dirs s.mem pgdir := fun hmem => hp (mem_dirs.mp hmem)
        rw [hdirs, Finset.card_insert_of_notMem habs, List.length_cons]
        omega
      · rw [hdirs]
        exact Finset.subset_insert _ _
      · intro va' hp'
        rw [hd.pdeOf_addTab hal h0, if_neg]
        intro hidx
        apply hp
        rwa [Present, ← pdeOf_congr hidx]
      · intro va' habs hp'
        have hidx := ((hd.present_addTab hal h0 va').mp hp').resolve_right habs
        rw [hd.tabOf_addTab hal h0, hd.pdeOf_addTab hal h0, if_pos hidx, if_pos hidx]
        exact ⟨List.mem_cons_self, rfl⟩
      · intro x hdir hfree _
        exact hd.addTab_outside hal h0 va x hdir fun he => hfree (he ▸ List.mem_cons_self)
    · exact (hd.present_addTab hal h0 va).mpr (Or.inl rfl)
    · exact hd.pteOf_addTab hal h0 hp

end Walk

/-! ## `map_pages` -/

/-- Writing an entry of a present table is an extension that adds nothing. -/
theorem Extends.setPte {pgdir va : Addr} {s : Kmem} {l : List Addr} (hl : FreeList s l)
    (hd : DirOk s.mem pgdir l) (hp : Present s.mem pgdir va) (v : Word) :
    Extends pgdir s l { s with mem := store32 s.mem (tabOf s.mem pgdir va + 4 * ptx va) v } l := by
  have hpde := hd.pdeOf_setPte hp v
  have hdirs := dirs_congr hpde
  obtain ⟨-, -, hfree⟩ := hd.tab_ne va hp
  have hout := sameOutside_store32 s.mem v (slot_aligned (pageAligned_tabOf s.mem pgdir va) (ptx_lt va))
    (slot_page (pageAligned_tabOf s.mem pgdir va) (ptx_lt va))
  refine ⟨hl.write hout hfree, hd.congr hpde, List.suffix_refl l, by rw [hdirs], by rw [hdirs],
    fun va' _ => hpde va', fun va' habs hp' => ?_, fun x _ _ htab => ?_⟩
  · exact absurd ((present_congr (hpde va')).mp hp') habs
  · exact hout x fun he => htab va hp he.symm

/-- The entry `map_pages` makes for `va` when it maps `start` to `pa`. -/
def mappedPte (start : Addr) (pa perm : Word) (va : Addr) : Word :=
  (pa + (pgRoundDown va - start)) ||| perm ||| pteP

theorem mappedPte_start {start va : Addr} (hal : PageAligned start) (pa perm : Word)
    (hva : va.toNat / 4096 = start.toNat / 4096) :
    mappedPte start pa perm va = pa ||| perm ||| pteP := by
  have hpage : pgRoundDown va = start := by
    apply BitVec.eq_of_toNat_eq
    unfold PageAligned at hal
    rw [pgRoundDown_toNat]
    omega
  rw [mappedPte, hpage, BitVec.sub_self, BitVec.add_zero]

/-- `start` and `pa` move together. -/
theorem mappedPte_next (start : Addr) (pa perm : Word) (va : Addr) :
    mappedPte (start + pgSize) (pa + pgSize) perm va = mappedPte start pa perm va := by
  have heq : pa + pgSize + (pgRoundDown va - (start + pgSize)) = pa + (pgRoundDown va - start) := by
    generalize pgSize = g
    bv_omega
  rw [mappedPte, heq, mappedPte]

/-- One round of `map_pages`, whose entry is not yet present. -/
theorem mapPagesLoop_step {pgdir start : Addr} {s : Kmem} {l : List Addr}
    (hl : FreeList s l) (hd : DirOk s.mem pgdir l) (hroom : Present s.mem pgdir start ∨ l ≠ [])
    (hfree : pteOf s.mem pgdir start &&& pteP = 0) (last : Addr) (pa perm : Word) (fuel : Nat) :
    ∃ s' l', mapPagesLoop pgdir last perm (fuel + 1) start pa s =
        (if start = last then .ok (0, s')
          else mapPagesLoop pgdir last perm fuel (start + pgSize) (pa + pgSize) s') ∧
      Extends pgdir s l s' l' ∧
      (∀ va, pteOf s'.mem pgdir va =
        if va.toNat / 4096 = start.toNat / 4096 then pa ||| perm ||| pteP
        else pteOf s.mem pgdir va) ∧
      dirs s'.mem pgdir = insert (start.toNat / 2 ^ 22) (dirs s.mem pgdir) := by
  obtain ⟨s₁, l', hwalk, hext, hp, hpte, hdirs⟩ := walkPgdir_ok hl hd hroom
  have hal := pageAligned_tabOf s₁.mem pgdir start
  have hslot := slot_ne_zero hal (ptx_lt start) (hext.dir.tab_ne start hp).1
  have hclear : load32 s₁.mem (tabOf s₁.mem pgdir start + 4 * ptx start) &&& pteP = 0 := by
    rw [← hpte, pteOf, if_pos hp] at hfree
    exact hfree
  have hset := Extends.setPte hext.free hext.dir hp (pa ||| perm ||| pteP)
  refine ⟨_, l', ?_, hext.trans hset, fun va => ?_, ?_⟩
  · rw [mapPagesLoop, hwalk]
    simp only
    rw [if_neg hslot, if_neg (not_not.mpr hclear)]
  · rw [hext.dir.pteOf_setPte hp, hpte]
  · rw [← hdirs]
    exact dirs_congr (hext.dir.pdeOf_setPte hp _)

/-- A page that is already mapped stops the loop. -/
theorem mapPagesLoop_mapped {pgdir start : Addr} {s : Kmem} {l : List Addr}
    (hd : DirOk s.mem pgdir l) (hmapped : pteOf s.mem pgdir start &&& pteP ≠ 0) (last : Addr)
    (pa perm : Word) (fuel : Nat) :
    mapPagesLoop pgdir last perm (fuel + 1) start pa s = .error (.panic "映射到重复的空间了!") := by
  have hp : Present s.mem pgdir start := by
    by_contra habs
    rw [pteOf, if_neg habs] at hmapped
    exact hmapped BitVec.zero_and
  have hslot := slot_ne_zero (pageAligned_tabOf s.mem pgdir start) (ptx_lt start)
    (hd.tab_ne start hp).1
  rw [pteOf, if_pos hp] at hmapped
  rw [mapPagesLoop, walkPgdir_present true hp]
  simp only
  rw [if_neg hslot]
  exact if_pos hmapped

/-- Without a page for the missing table the loop gives up and changes nothing. -/
theorem mapPagesLoop_null {pgdir start : Addr} {s : Kmem} (hl : FreeList s [])
    (habs : ¬Present s.mem pgdir start) (last : Addr) (pa perm : Word) (fuel : Nat) :
    mapPagesLoop pgdir last perm (fuel + 1) start pa s = .ok (-1, s) := by
  rw [mapPagesLoop, walkPgdir_null hl habs]
  rfl

/-! ### The first pages of a range -/

/-- The page at distance `k` from `start`. -/
def pageAt (start : Addr) (k : Nat) : Addr := start + BitVec.ofNat 32 (k * 4096)

theorem pageAt_toNat {start : Addr} {k : Nat} (h : start.toNat + k * 4096 < 2 ^ 32) :
    (pageAt start k).toNat = start.toNat + k * 4096 := by
  rw [pageAt, BitVec.toNat_add, BitVec.toNat_ofNat]
  omega

theorem pageAt_succ (start : Addr) (k : Nat) : pageAt start (k + 1) = pageAt start k + pgSize := by
  rw [pageAt, pageAt, Nat.succ_mul, BitVec.ofNat_add, BitVec.add_assoc]
  rfl

theorem pageAt_zero (start : Addr) : pageAt start 0 = start :=
  BitVec.add_zero start

/-- `va` lies in one of the first `k` pages from `start` on. -/
def InPages (start : Addr) (k : Nat) (va : Addr) : Prop :=
  start.toNat / 4096 ≤ va.toNat / 4096 ∧ va.toNat / 4096 < start.toNat / 4096 + k

instance (start : Addr) (k : Nat) (va : Addr) : Decidable (InPages start k va) :=
  inferInstanceAs (Decidable (_ ∧ _))

/-- The directory entries of the first `k` pages. -/
def tablesFor (start : Addr) (k : Nat) : Finset Nat :=
  (Finset.range k).image fun j => (start.toNat / 4096 + j) / 1024

/-- The page tables that are missing for the first `k` pages. -/
def tablesNeeded (m : Mem) (pgdir start : Addr) (k : Nat) : Nat :=
  (tablesFor start k \ dirs m pgdir).card

@[simp] theorem tablesNeeded_zero (m : Mem) (pgdir start : Addr) :
    tablesNeeded m pgdir start 0 = 0 := by
  simp [tablesNeeded, tablesFor]

theorem tablesFor_succ (start : Addr) (k : Nat) :
    tablesFor start (k + 1) = insert ((start.toNat / 4096 + k) / 1024) (tablesFor start k) := by
  rw [tablesFor, Finset.range_add_one, Finset.image_insert]
  rfl

theorem tablesFor_eq_Icc (start : Addr) (n : Nat) :
    tablesFor start (n + 1) =
      Finset.Icc (start.toNat / 2 ^ 22) ((start.toNat + n * 4096) / 2 ^ 22) := by
  ext i
  rw [tablesFor, Finset.mem_image, Finset.mem_Icc]
  constructor
  · rintro ⟨j, hj, rfl⟩
    rw [Finset.mem_range] at hj
    omega
  · rintro ⟨hlo, hhi⟩
    refine ⟨max (i * 1024) (start.toNat / 4096) - start.toNat / 4096, ?_, ?_⟩
    · rw [Finset.mem_range]
      omega
    · omega

/-- `s'` is `s` with the first `k` pages from `start` on mapped to `pa` and on. -/
structure Mapped (pgdir start : Addr) (pa perm : Word) (s : Kmem) (l : List Addr) (k : Nat)
    (s' : Kmem) (l' : List Addr) : Prop where
  ext : Extends pgdir s l s' l'
  pte : ∀ va, pteOf s'.mem pgdir va =
    if InPages start k va then mappedPte start pa perm va else pteOf s.mem pgdir va
  dirs : dirs s'.mem pgdir = dirs s.mem pgdir ∪ tablesFor start k

namespace Mapped
variable {pgdir start : Addr} {pa perm : Word} {s s' : Kmem} {l l' : List Addr} {k : Nat}

theorem refl (pa perm : Word) (hl : FreeList s l) (hd : DirOk s.mem pgdir l) :
    Mapped pgdir start pa perm s l 0 s l where
  ext := Extends.refl hl hd
  pte va := (if_neg fun h => by unfold InPages at h; omega).symm
  dirs := (Finset.union_empty _).symm

/-- The pages taken are the tables that were missing. -/
theorem length (h : Mapped pgdir start pa perm s l k s' l') :
    l'.length + tablesNeeded s.mem pgdir start k = l.length := by
  have hcount := h.ext.count
  have hcard := Finset.card_sdiff_add_card (tablesFor start k) (TuixOS.dirs s.mem pgdir)
  rw [Finset.union_comm, ← h.dirs] at hcard
  unfold tablesNeeded
  omega

theorem eq_drop (h : Mapped pgdir start pa perm s l k s' l') :
    l' = l.drop (tablesNeeded s.mem pgdir start k) := by
  have hlen := h.length
  have htaken : l.length - l'.length = tablesNeeded s.mem pgdir start k := by omega
  rw [List.suffix_iff_eq_drop.mp h.ext.suffix, htaken]

/-- The next page has its table, or a page to make it from, if the tables of the range so far and
of this page were within the free list. -/
theorem room_iff (h : Mapped pgdir start pa perm s l k s' l')
    (hk : start.toNat + k * 4096 < 2 ^ 32) :
    Present s'.mem pgdir (pageAt start k) ∨ l' ≠ [] ↔
      tablesNeeded s.mem pgdir start (k + 1) ≤ l.length := by
  have hlen := h.length
  have hidx : (pageAt start k).toNat / 2 ^ 22 = (start.toNat / 4096 + k) / 1024 := by
    rw [pageAt_toNat hk]
    omega
  rw [← mem_dirs, hidx, h.dirs, tablesNeeded, tablesFor_succ]
  by_cases hmem : (start.toNat / 4096 + k) / 1024 ∈ TuixOS.dirs s.mem pgdir ∪ tablesFor start k
  · have hsame : insert ((start.toNat / 4096 + k) / 1024) (tablesFor start k) \
        TuixOS.dirs s.mem pgdir = tablesFor start k \ TuixOS.dirs s.mem pgdir := by
      rcases Finset.mem_union.mp hmem with hold | hnew
      · exact Finset.insert_sdiff_of_mem _ hold
      · rw [Finset.insert_eq_of_mem hnew]
    rw [hsame]
    exact iff_of_true (Or.inl hmem) (by unfold tablesNeeded at hlen; omega)
  · have hnew := hmem
    rw [Finset.mem_union, not_or] at hnew
    rw [Finset.insert_sdiff_of_notMem _ hnew.1, Finset.card_insert_of_notMem
      fun hin => hnew.2 (Finset.mem_sdiff.mp hin).1, or_iff_right hmem, ← List.length_pos_iff]
    unfold tablesNeeded at hlen
    omega

/-- The entry of the next page is as it was. -/
theorem pte_next (h : Mapped pgdir start pa perm s l k s' l')
    (hk : start.toNat + k * 4096 < 2 ^ 32) :
    pteOf s'.mem pgdir (pageAt start k) = pteOf s.mem pgdir (pageAt start k) := by
  rw [h.pte, if_neg]
  unfold InPages
  rw [pageAt_toNat hk]
  omega

end Mapped

theorem mappedPte_pageAt (start : Addr) (pa perm : Word) (k : Nat) (va : Addr) :
    mappedPte (pageAt start k) (pageAt pa k) perm va = mappedPte start pa perm va := by
  induction k with
  | zero => rw [pageAt_zero, pageAt_zero]
  | succ k ih => rw [pageAt_succ, pageAt_succ, mappedPte_next, ih]

/-- One more page. -/
theorem Mapped.next {pgdir start : Addr} {pa perm : Word} {s s' : Kmem} {l l' : List Addr}
    {k : Nat} (h : Mapped pgdir start pa perm s l k s' l') (hal : PageAligned start)
    (hk : start.toNat + k * 4096 < 2 ^ 32)
    (hroom : tablesNeeded s.mem pgdir start (k + 1) ≤ l.length)
    (hfree : pteOf s.mem pgdir (pageAt start k) &&& pteP = 0) (last : Addr) (fuel : Nat) :
    ∃ s'' l'', Mapped pgdir start pa perm s l (k + 1) s'' l'' ∧
      mapPagesLoop pgdir last perm (fuel + 1) (pageAt start k) (pageAt pa k) s' =
        if pageAt start k = last then .ok (0, s'')
        else mapPagesLoop pgdir last perm fuel (pageAt start (k + 1)) (pageAt pa (k + 1)) s'' := by
  have hpage := pageAt_toNat hk
  have halk : PageAligned (pageAt start k) := by
    unfold PageAligned at hal ⊢
    omega
  obtain ⟨s₂, l₂, hloop, hext, hpte, hdirs⟩ := mapPagesLoop_step h.ext.free h.ext.dir
    ((h.room_iff hk).mpr hroom) (by rw [h.pte_next hk]; exact hfree) last (pageAt pa k) perm fuel
  refine ⟨s₂, l₂, ⟨h.ext.trans hext, fun va => ?_, ?_⟩, ?_⟩
  · rw [hpte]
    by_cases hva : va.toNat / 4096 = (pageAt start k).toNat / 4096
    · rw [if_pos hva, if_pos (by unfold InPages; omega), ← mappedPte_pageAt start pa perm k,
        mappedPte_start halk _ perm hva]
    · rw [if_neg hva, h.pte]
      by_cases hin : InPages start k va
      · rw [if_pos hin, if_pos (by unfold InPages at hin ⊢; omega)]
      · rw [if_neg hin, if_neg (by unfold InPages at hin ⊢; omega)]
  · have hidx : (pageAt start k).toNat / 2 ^ 22 = (start.toNat / 4096 + k) / 1024 := by omega
    rw [hdirs, h.dirs, tablesFor_succ, hidx, Finset.union_insert]
  · rw [hloop, pageAt_succ, pageAt_succ]

theorem tablesNeeded_mono (m : Mem) (pgdir start : Addr) {j k : Nat} (h : j ≤ k) :
    tablesNeeded m pgdir start j ≤ tablesNeeded m pgdir start k := by
  apply Finset.card_le_card
  apply Finset.sdiff_subset_sdiff _ (Finset.Subset.refl _)
  exact Finset.image_subset_image (Finset.range_subset_range.mpr h)

/-- The loop gets past its first `k` pages if none of them is mapped and there is a free page for
each table they need; `last` is not one of them. -/
theorem mapPagesLoop_prefix {pgdir start last : Addr} {s : Kmem} {l : List Addr}
    (hl : FreeList s l) (hd : DirOk s.mem pgdir l) (hal : PageAligned start) (pa perm : Word) :
    ∀ k, start.toNat + k * 4096 ≤ last.toNat →
      (∀ j < k, pteOf s.mem pgdir (pageAt start j) &&& pteP = 0) →
      tablesNeeded s.mem pgdir start k ≤ l.length → ∀ fuel,
      ∃ s' l', Mapped pgdir start pa perm s l k s' l' ∧
        mapPagesLoop pgdir last perm (fuel + k) start pa s =
          mapPagesLoop pgdir last perm fuel (pageAt start k) (pageAt pa k) s' := by
  intro k
  induction k with
  | zero =>
    intro _ _ _ fuel
    refine ⟨s, l, Mapped.refl pa perm hl hd, ?_⟩
    rw [pageAt_zero, pageAt_zero, Nat.add_zero]
  | succ k ih =>
    intro hlast hfree hroom fuel
    have hbefore : start.toNat + k * 4096 ≤ last.toNat :=
      le_trans (Nat.add_le_add_left (Nat.mul_le_mul_right 4096 (Nat.le_succ k)) _) hlast
    have hbound := last.isLt
    have hk : start.toNat + k * 4096 < 2 ^ 32 := by omega
    have hpage := pageAt_toNat hk
    have hroom' := (tablesNeeded_mono s.mem pgdir start (Nat.le_succ k)).trans hroom
    obtain ⟨s₁, l₁, hm, hloop⟩ := ih hbefore (fun j hj => hfree j (Nat.lt_succ_of_lt hj)) hroom'
      (fuel + 1)
    obtain ⟨s₂, l₂, hm', hstep⟩ := hm.next hal hk hroom (hfree k (Nat.lt_succ_self k)) last fuel
    refine ⟨s₂, l₂, hm', ?_⟩
    have hne : pageAt start k ≠ last := by
      rintro rfl
      omega
    rw [← Nat.add_assoc, Nat.add_right_comm, hloop, hstep, if_neg hne]

/-- All `n + 1` pages of the range. -/
theorem mapPagesLoop_ok {pgdir start last : Addr} {s : Kmem} {l : List Addr}
    {n fuel : Nat} (hfuel : n < fuel) (hl : FreeList s l) (hd : DirOk s.mem pgdir l)
    (hal : PageAligned start) (hlast : last.toNat = start.toNat + n * 4096)
    (hfree : ∀ j < n + 1, pteOf s.mem pgdir (pageAt start j) &&& pteP = 0)
    (hroom : tablesNeeded s.mem pgdir start (n + 1) ≤ l.length) (pa perm : Word) :
    ∃ s' l', mapPagesLoop pgdir last perm fuel start pa s = .ok (0, s') ∧
      Mapped pgdir start pa perm s l (n + 1) s' l' := by
  obtain ⟨f, rfl⟩ := Nat.exists_eq_add_of_lt hfuel
  have hbound := last.isLt
  have hk : start.toNat + n * 4096 < 2 ^ 32 := by omega
  have hroom' := (tablesNeeded_mono s.mem pgdir start (Nat.le_succ n)).trans hroom
  obtain ⟨s₁, l₁, hm, hloop⟩ := mapPagesLoop_prefix hl hd hal pa perm n
    (le_of_eq hlast.symm) (fun j hj => hfree j (Nat.lt_succ_of_lt hj)) hroom' (f + 1)
  obtain ⟨s₂, l₂, hm', hstep⟩ := hm.next hal hk hroom (hfree n (Nat.lt_succ_self n)) last f
  have heq : pageAt start n = last := BitVec.eq_of_toNat_eq (by rw [pageAt_toNat hk, hlast])
  refine ⟨s₂, l₂, ?_, hm'⟩
  rw [Nat.add_assoc, Nat.add_comm, hloop, hstep, if_pos heq]

/-- `map_pages` over `n + 1` whole pages that end at or below `2^32`. -/
theorem mapPages_ok {pgdir va : Addr} {size : Word} {n : Nat} {s : Kmem} {l : List Addr}
    (hl : FreeList s l) (hd : DirOk s.mem pgdir l) (hal : PageAligned va)
    (hsize : size.toNat = (n + 1) * 4096) (hend : va.toNat + size.toNat ≤ 2 ^ 32)
    (hfree : ∀ va', va.toNat ≤ va'.toNat → va'.toNat < va.toNat + size.toNat →
      pteOf s.mem pgdir va' &&& pteP = 0)
    (hcard : (dirs s.mem pgdir ∪
        Finset.Icc (va.toNat / 2 ^ 22) ((va.toNat + size.toNat - 1) / 2 ^ 22)).card ≤
      (dirs s.mem pgdir).card + l.length) (pa perm : Word) :
    ∃ s' l', mapPages pgdir va size pa perm s = .ok (0, s') ∧
      Extends pgdir s l s' l' ∧
      (∀ va', pteOf s'.mem pgdir va' =
        if va.toNat ≤ va'.toNat ∧ va'.toNat < va.toNat + size.toNat then mappedPte va pa perm va'
        else pteOf s.mem pgdir va') ∧
      dirs s'.mem pgdir = dirs s.mem pgdir ∪
        Finset.Icc (va.toNat / 2 ^ 22) ((va.toNat + size.toNat - 1) / 2 ^ 22) := by
  have hal' := hal
  unfold PageAligned at hal
  have hlast : (pgRoundDown (va + size - 1)).toNat = va.toNat + n * 4096 := by
    have hsub : (va + size - 1).toNat = va.toNat + size.toNat - 1 := by bv_omega
    rw [pgRoundDown_toNat, hsub]
    omega
  have htables : tablesFor va (n + 1) =
      Finset.Icc (va.toNat / 2 ^ 22) ((va.toNat + size.toNat - 1) / 2 ^ 22) := by
    rw [tablesFor_eq_Icc]
    congr 1
    omega
  have hroom : tablesNeeded s.mem pgdir va (n + 1) ≤ l.length := by
    have hadd := Finset.card_sdiff_add_card (tablesFor va (n + 1)) (dirs s.mem pgdir)
    rw [← htables, Finset.union_comm] at hcard
    unfold tablesNeeded
    omega
  have hclear : ∀ j < n + 1, pteOf s.mem pgdir (pageAt va j) &&& pteP = 0 := by
    intro j hj
    have hpage : (pageAt va j).toNat = va.toNat + j * 4096 := pageAt_toNat (by omega)
    exact hfree _ (by omega) (by omega)
  obtain ⟨s', l', hloop, hm⟩ :=
    mapPagesLoop_ok (show n < 2 ^ 20 by omega) hl hd hal' hlast hclear hroom pa perm
  refine ⟨s', l', ?_, hm.ext, fun va' => ?_, ?_⟩
  · unfold mapPages
    rw [hal'.pgRoundDown_eq]
    exact hloop
  · rw [hm.pte]
    unfold InPages
    congr 1
    rw [eq_iff_iff]
    omega
  · rw [hm.dirs, htables]

end TuixOS
