import TuixOS.KernelSpace

/-!
# `map_pages` over any range

`map_pages` rounds both ends of its range to pages and goes through the pages one by one
(`mapPagesLoop_prefix`). The first page that is mapped already, or whose page table cannot be made,
decides how it ends: `map_pages_outcome` gives the three ends and what each leaves behind.
-/

namespace TuixOS

open Lib

/-! ## The pages taken -/

/-- The pages that left the free list are the tables that were added. -/
theorem Extends.taken {pgdir : Addr} {s s' : Kmem} {l l' : List Addr}
    (h : Extends pgdir s l s' l') (hnodup : l.Nodup) {p : Addr} (hp : p ∈ l) (hgone : p ∉ l') :
    ∃ va, Present s'.mem pgdir va ∧ tabOf s'.mem pgdir va = p := by
  obtain ⟨t, rfl⟩ := h.suffix
  have hpt : p ∈ t := (List.mem_append.mp hp).resolve_right hgone
  have hcount := h.count
  have hsub := Finset.card_sdiff_add_card_eq_card h.sub
  have hcard : t.toFinset.card ≤ (dirs s'.mem pgdir \ dirs s.mem pgdir).card := by
    rw [List.toFinset_card_of_nodup (List.nodup_append.mp hnodup).1]
    rw [List.length_append] at hcount
    omega
  have hpresent : ∀ {m : Mem} {i : Nat}, i ∈ dirs m pgdir →
      Present m pgdir (BitVec.ofNat 32 (i * 2 ^ 22)) := fun hi => (mem_dirs_iff (dirs_lt hi)).mp hi
  have hmaps : Set.MapsTo (fun i => tabOf s'.mem pgdir (BitVec.ofNat 32 (i * 2 ^ 22)))
      (dirs s'.mem pgdir \ dirs s.mem pgdir : Finset Nat) t.toFinset := by
    intro i hi
    obtain ⟨hnew, hold⟩ := Finset.mem_sdiff.mp (Finset.mem_coe.mp hi)
    have habs : ¬Present s.mem pgdir (BitVec.ofNat 32 (i * 2 ^ 22)) := fun hp =>
      hold ((mem_dirs_iff (dirs_lt hnew)).mpr hp)
    rw [Finset.mem_coe, List.mem_toFinset]
    exact (List.mem_append.mp (h.fresh _ habs (hpresent hnew)).1).resolve_right
      (h.dir.tab_ne _ (hpresent hnew)).2.2
  have hinj : Set.InjOn (fun i => tabOf s'.mem pgdir (BitVec.ofNat 32 (i * 2 ^ 22)))
      (dirs s'.mem pgdir \ dirs s.mem pgdir : Finset Nat) := by
    intro i hi j hj heq
    have hi' := (Finset.mem_sdiff.mp (Finset.mem_coe.mp hi)).1
    have hj' := (Finset.mem_sdiff.mp (Finset.mem_coe.mp hj)).1
    have hidx := h.dir.tab_inj _ _ (hpresent hi') (hpresent hj') heq
    have hilt := dirs_lt hi'
    have hjlt := dirs_lt hj'
    rw [pdx_eq_iff, BitVec.toNat_ofNat, BitVec.toNat_ofNat] at hidx
    omega
  obtain ⟨i, hi, htab⟩ := Finset.surjOn_of_injOn_of_card_le _ hmaps hinj hcard
    (Finset.mem_coe.mpr (List.mem_toFinset.mpr hpt))
  exact ⟨_, hpresent (Finset.mem_sdiff.mp (Finset.mem_coe.mp hi)).1, htab⟩

/-! ## The translation with any directory entries -/

section Translate
variable {m m' : Mem} {pgdir va : Addr}

/-- Without a table there is no translation. -/
theorem translate_absent (habs : ¬Present m pgdir va) : translate m pgdir va = none :=
  if_pos (not_not.mp habs)

theorem translate_congr (hpde : pdeOf m' pgdir va = pdeOf m pgdir va)
    (hpte : pteOf m' pgdir va = pteOf m pgdir va) :
    translate m' pgdir va = translate m pgdir va := by
  by_cases hp : Present m pgdir va
  · have hp' := (present_congr hpde).mpr hp
    rw [pteOf, pteOf, if_pos hp, if_pos hp'] at hpte
    have hload : load32 m' (pgdir + 4 * pdx va) = load32 m (pgdir + 4 * pdx va) := hpde
    have hentry : load32 m' (p2v (pteAddr (load32 m' (pgdir + 4 * pdx va))) + 4 * ptx va) =
        load32 m (p2v (pteAddr (load32 m (pgdir + 4 * pdx va))) + 4 * ptx va) := hpte
    rw [translate, translate, hentry, hload]
  · rw [translate_absent hp, translate_absent fun hp' => hp ((present_congr hpde).mp hp')]

/-- Through a table the rights are those of both entries. -/
theorem translate_pte (hps : pdeOf m pgdir va &&& ptePS = 0) (hpte : pteOf m pgdir va &&& pteP ≠ 0) :
    translate m pgdir va = some ⟨pteAddr (pteOf m pgdir va) ||| (va &&& 0xFFF#32),
      pdeOf m pgdir va &&& pteW ≠ 0 ∧ pteOf m pgdir va &&& pteW ≠ 0,
      pdeOf m pgdir va &&& pteU ≠ 0 ∧ pteOf m pgdir va &&& pteU ≠ 0⟩ := by
  have hp : Present m pgdir va := by
    by_contra habs
    rw [pteOf, if_neg habs] at hpte
    exact hpte BitVec.zero_and
  have hentry : pteOf m pgdir va = entry m (tabOf m pgdir va) (ptx va) := if_pos hp
  rw [hentry] at hpte ⊢
  unfold translate
  rw [if_neg (show ¬load32 m (pgdir + 4 * pdx va) &&& pteP = 0 from hp),
    if_neg (not_not.mpr (show load32 m (pgdir + 4 * pdx va) &&& ptePS = 0 from hps))]
  exact if_neg hpte

end Translate

/-! ## What a call leaves -/

/-- The state `s'` and the free pages `l'` after the first `k` pages of the range at `va` have been
mapped to `pa` and on, and nothing else has changed since `s`. -/
structure RangeMapped (pgdir va : Addr) (pa perm : Word) (k : Nat) (s : Kmem) (l : List Addr)
    (s' : Kmem) (l' : List Addr) : Prop where
  free : FreeList s' l'
  dir : DirOk s'.mem pgdir l'
  /-- Page `j` has the frame `pa + j * 4096` and exactly the flags `perm | PTE_P`. -/
  page : ∀ j < k, ∀ a : Addr, a.toNat / 4096 = va.toNat / 4096 + j →
    pteAddr (pteOf s'.mem pgdir a) = pa + BitVec.ofNat 32 (j * 4096) ∧
      pteOf s'.mem pgdir a &&& 0xFFF#32 = perm ||| pteP ∧
      (pdeOf s'.mem pgdir a &&& ptePS = 0 → translate s'.mem pgdir a =
        some ⟨pa + BitVec.ofNat 32 (j * 4096) + (a &&& 0xFFF#32),
          pdeOf s'.mem pgdir a &&& pteW ≠ 0 ∧ perm &&& pteW ≠ 0,
          pdeOf s'.mem pgdir a &&& pteU ≠ 0 ∧ perm &&& pteU ≠ 0⟩)
  other : ∀ a : Addr, (∀ j < k, a.toNat / 4096 ≠ va.toNat / 4096 + j) →
    pteOf s'.mem pgdir a = pteOf s.mem pgdir a ∧ translate s'.mem pgdir a = translate s.mem pgdir a
  pde : ∀ a, Present s.mem pgdir a → pdeOf s'.mem pgdir a = pdeOf s.mem pgdir a
  frame : ∀ x, pgRoundDown x ≠ pgdir → pgRoundDown x ∉ l →
    (∀ a, Present s.mem pgdir a → tabOf s.mem pgdir a ≠ pgRoundDown x) → s'.mem x = s.mem x
  taken : ∀ p ∈ l, p ∉ l' → ∃ a, Present s'.mem pgdir a ∧ tabOf s'.mem pgdir a = p

section Mapped
variable {pgdir start : Addr} {pa perm : Word} {s s' : Kmem} {l l' : List Addr} {k : Nat}

/-- An address outside the range keeps its translation, also where a table was added for it. -/
theorem Mapped.translate_other (h : Mapped pgdir start pa perm s l k s' l') {a : Addr}
    (ha : ¬InPages start k a) : translate s'.mem pgdir a = translate s.mem pgdir a := by
  have hpte : pteOf s'.mem pgdir a = pteOf s.mem pgdir a := (h.pte a).trans (if_neg ha)
  by_cases hp : Present s.mem pgdir a
  · exact translate_congr (h.ext.pde a hp) hpte
  · rw [translate_absent hp]
    by_cases hp' : Present s'.mem pgdir a
    · -- the entry of the added table is 0
      rw [translate_eq fun _ => (h.ext.fresh a hp hp').2, hpte, pteOf, if_neg hp]
      rfl
    · exact translate_absent hp'

theorem mappedPte_flags {va : Addr} (hal : PageAligned start) (hpa : PageAligned pa)
    (hperm : (perm ||| pteP).toNat < 4096) :
    mappedPte start pa perm va &&& 0xFFF#32 = perm ||| pteP := by
  rw [mappedPte, BitVec.or_assoc, or_and_low (mappedPte_aligned hal hpa va) (by decide)]
  apply BitVec.eq_of_toNat_eq
  rw [and_offset_mask]
  exact Nat.mod_eq_of_lt hperm

theorem mappedPte_addr {va : Addr} (hal : PageAligned start) (hpa : PageAligned pa)
    (hperm : (perm ||| pteP).toNat < 4096) {j : Nat}
    (hva : va.toNat / 4096 = start.toNat / 4096 + j) :
    pteAddr (mappedPte start pa perm va) = pa + BitVec.ofNat 32 (j * 4096) := by
  have hdist : pgRoundDown va - start = BitVec.ofNat 32 (j * 4096) := by
    apply BitVec.eq_of_toNat_eq
    have := start.isLt
    have := va.isLt
    unfold PageAligned at hal
    rw [BitVec.toNat_sub, pgRoundDown_toNat, BitVec.toNat_ofNat]
    omega
  rw [mappedPte, BitVec.or_assoc, pteAddr_or (mappedPte_aligned hal hpa va) hperm, hdist]

theorem Mapped.rangeMapped {va : Addr} (h : Mapped pgdir (pgRoundDown va) pa perm s l k s' l')
    (hl : FreeList s l) (hpa : PageAligned pa) (hperm : perm &&& (pteW ||| pteU) = perm) :
    RangeMapped pgdir va pa perm k s l s' l' := by
  have hal := pageAligned_pgRoundDown va
  have hstart : (pgRoundDown va).toNat / 4096 = va.toNat / 4096 := by
    rw [pgRoundDown_toNat]
    omega
  have hsmall : (perm ||| pteP).toNat < 4096 := by
    have hle : perm.toNat ≤ 6 := by
      rw [← hperm, BitVec.toNat_and]
      exact Nat.and_le_right
    rw [BitVec.toNat_or]
    exact Nat.or_lt_two_pow (n := 12) (by omega) (by decide)
  refine ⟨h.ext.free, h.ext.dir, fun j hj a ha => ?_, fun a ha => ?_, h.ext.pde, h.ext.frame,
    fun p hp hgone => h.ext.taken hl.nodup hp hgone⟩
  · have hin : InPages (pgRoundDown va) k a := by
      unfold InPages
      omega
    have hpte : pteOf s'.mem pgdir a = mappedPte (pgRoundDown va) pa perm a :=
      (h.pte a).trans (if_pos hin)
    have haddr : pteAddr (mappedPte (pgRoundDown va) pa perm a) =
        pa + BitVec.ofNat 32 (j * 4096) := mappedPte_addr hal hpa hsmall (by omega)
    have hframe : PageAligned (pa + BitVec.ofNat 32 (j * 4096)) := by
      unfold PageAligned at hpa ⊢
      rw [BitVec.toNat_add, BitVec.toNat_ofNat]
      omega
    rw [hpte]
    refine ⟨haddr, mappedPte_flags hal hpa hsmall, fun hps => ?_⟩
    rw [translate_pte hps (by rw [hpte]; exact mappedPte_present perm hal hpa a), hpte, haddr,
      mappedPte_flag hal hpa (by decide) (by decide), mappedPte_flag hal hpa (by decide) (by decide)]
    have hoff : (pa + BitVec.ofNat 32 (j * 4096)) &&& (a &&& 0xFFF#32) = 0 := by
      apply aligned_and_low hframe
      rw [and_offset_mask]
      exact Nat.mod_lt _ (by decide)
    rw [BitVec.add_eq_or_of_and_eq_zero _ _ hoff]
  · have hout : ¬InPages (pgRoundDown va) k a := by
      rintro ⟨hlo, hhi⟩
      exact ha (a.toNat / 4096 - va.toNat / 4096) (by omega) (by omega)
    exact ⟨(h.pte a).trans (if_neg hout), h.translate_other hout⟩

end Mapped

/-! ## How a call ends -/

/-- The number of pages that `size` bytes at `va` touch. -/
def pageCount (va : Addr) (size : Word) : Nat :=
  (va.toNat + size.toNat - 1) / 4096 - va.toNat / 4096 + 1

/-- The `k`-th page of the range at `va` is mapped already. -/
def Occupied (m : Mem) (pgdir va : Addr) (k : Nat) : Prop :=
  pteOf m pgdir (pageAt (pgRoundDown va) k) &&& pteP ≠ 0

section Outcome
variable {pgdir va : Addr} {size pa perm : Word} {s : Kmem} {l : List Addr}

/-- The loop of a call stops at the last page of the range. -/
theorem pgRoundDown_last (hsize : 1 ≤ size.toNat) (hend : va.toNat + size.toNat ≤ 2 ^ 32) :
    (pgRoundDown (va + size - 1)).toNat =
      (pgRoundDown va).toNat + (pageCount va size - 1) * 4096 := by
  have hsub : (va + size - 1).toNat = va.toNat + size.toNat - 1 := by bv_omega
  rw [pgRoundDown_toNat, pgRoundDown_toNat, hsub, pageCount]
  omega

theorem pageCount_le (hend : va.toNat + size.toNat ≤ 2 ^ 32) : pageCount va size ≤ 2 ^ 20 := by
  have := va.isLt
  unfold pageCount
  omega

/-- The call from its `k`-th page on, when nothing before has stopped it. -/
theorem mapPages_prefix (hl : FreeList s l) (hd : DirOk s.mem pgdir l) (hsize : 1 ≤ size.toNat)
    (hend : va.toNat + size.toNat ≤ 2 ^ 32) {k : Nat} (hk : k < pageCount va size)
    (hclear : ∀ j < k, ¬Occupied s.mem pgdir va j)
    (hroom : tablesNeeded s.mem pgdir (pgRoundDown va) k ≤ l.length) (pa perm : Word) :
    (pgRoundDown va).toNat + k * 4096 < 2 ^ 32 ∧
    ∃ fuel s' l', Mapped pgdir (pgRoundDown va) pa perm s l k s' l' ∧
      mapPages pgdir va size pa perm s = mapPagesLoop pgdir (pgRoundDown (va + size - 1)) perm
        (fuel + 1) (pageAt (pgRoundDown va) k) (pageAt pa k) s' := by
  have hlast := pgRoundDown_last hsize hend
  have hcount := pageCount_le hend
  have hbound := (pgRoundDown (va + size - 1)).isLt
  have hbefore : (pgRoundDown va).toNat + k * 4096 ≤ (pgRoundDown (va + size - 1)).toNat := by
    omega
  obtain ⟨s', l', hm, hloop⟩ := mapPagesLoop_prefix hl hd (pageAligned_pgRoundDown va) pa perm k
    hbefore (fun j hj => not_not.mp (hclear j hj)) hroom (2 ^ 20 - k - 1 + 1)
  refine ⟨by omega, 2 ^ 20 - k - 1, s', l', hm, ?_⟩
  rw [← hloop, show 2 ^ 20 - k - 1 + 1 + k = 2 ^ 20 by omega]
  rfl

theorem mapPages_whole (hl : FreeList s l) (hd : DirOk s.mem pgdir l) (hsize : 1 ≤ size.toNat)
    (hend : va.toNat + size.toNat ≤ 2 ^ 32)
    (hclear : ∀ k < pageCount va size, ¬Occupied s.mem pgdir va k)
    (hroom : tablesNeeded s.mem pgdir (pgRoundDown va) (pageCount va size) ≤ l.length)
    (pa perm : Word) :
    ∃ s' l', mapPages pgdir va size pa perm s = .ok (0, s') ∧
      Mapped pgdir (pgRoundDown va) pa perm s l (pageCount va size) s' l' := by
  have hcount := pageCount_le hend
  exact mapPagesLoop_ok (n := pageCount va size - 1) (by unfold pageCount at *; omega) hl hd
    (pageAligned_pgRoundDown va) (pgRoundDown_last hsize hend)
    (fun j hj => not_not.mp (hclear j hj)) hroom pa perm

theorem mapPages_short (hl : FreeList s l) (hd : DirOk s.mem pgdir l) (hsize : 1 ≤ size.toNat)
    (hend : va.toNat + size.toNat ≤ 2 ^ 32) {k : Nat} (hk : k < pageCount va size)
    (hclear : ∀ j < k, ¬Occupied s.mem pgdir va j)
    (hroom : tablesNeeded s.mem pgdir (pgRoundDown va) k ≤ l.length)
    (hshort : l.length < tablesNeeded s.mem pgdir (pgRoundDown va) (k + 1)) (pa perm : Word) :
    ∃ s', mapPages pgdir va size pa perm s = .ok (-1, s') ∧
      Mapped pgdir (pgRoundDown va) pa perm s l k s' [] := by
  obtain ⟨hlt, fuel, s', l', hm, hloop⟩ := mapPages_prefix hl hd hsize hend hk hclear hroom pa perm
  obtain ⟨habs, hnil⟩ := not_or.mp (mt (hm.room_iff hlt).mp (not_le.mpr hshort))
  have hnil := not_not.mp hnil
  subst hnil
  refine ⟨s', ?_, hm⟩
  rw [hloop, mapPagesLoop_null hm.ext.free habs]

theorem mapPages_occupied (hl : FreeList s l) (hd : DirOk s.mem pgdir l) (hsize : 1 ≤ size.toNat)
    (hend : va.toNat + size.toNat ≤ 2 ^ 32) {k : Nat} (hk : k < pageCount va size)
    (hclear : ∀ j < k, ¬Occupied s.mem pgdir va j)
    (hroom : tablesNeeded s.mem pgdir (pgRoundDown va) k ≤ l.length)
    (hocc : Occupied s.mem pgdir va k) (pa perm : Word) :
    mapPages pgdir va size pa perm s = .error (.panic "映射到重复的空间了!") := by
  obtain ⟨hlt, fuel, s', l', hm, hloop⟩ := mapPages_prefix hl hd hsize hend hk hclear hroom pa perm
  rw [hloop]
  apply mapPagesLoop_mapped hm.ext.dir
  rw [hm.pte_next hlt]
  exact hocc

/-- **`map_pages` over any range.** It returns or panics. With no page of the range mapped and a
free page for each missing table it maps the whole range; at the first page whose table cannot be
made it returns -1 with the pages before it mapped; at the first page that is mapped already it
panics. -/
theorem map_pages_outcome (hl : FreeList s l) (hd : DirOk s.mem pgdir l) (hpa : PageAligned pa)
    (hperm : perm &&& (pteW ||| pteU) = perm) (hsize : 1 ≤ size.toNat)
    (hend : va.toNat + size.toNat ≤ 2 ^ 32) :
    mapPages pgdir va size pa perm s ≠ .error .diverge ∧
    ((∀ k < pageCount va size, ¬Occupied s.mem pgdir va k) →
      tablesNeeded s.mem pgdir (pgRoundDown va) (pageCount va size) ≤ l.length →
      ∃ s', mapPages pgdir va size pa perm s = .ok (0, s') ∧
        RangeMapped pgdir va pa perm (pageCount va size) s l s'
          (l.drop (tablesNeeded s.mem pgdir (pgRoundDown va) (pageCount va size)))) ∧
    ∀ k < pageCount va size, (∀ j < k, ¬Occupied s.mem pgdir va j) →
      tablesNeeded s.mem pgdir (pgRoundDown va) k ≤ l.length →
      (l.length < tablesNeeded s.mem pgdir (pgRoundDown va) (k + 1) →
        ∃ s', mapPages pgdir va size pa perm s = .ok (-1, s') ∧
          RangeMapped pgdir va pa perm k s l s' []) ∧
      (Occupied s.mem pgdir va k →
        mapPages pgdir va size pa perm s = .error (.panic "映射到重复的空间了!")) := by
  refine ⟨?_, fun hclear hroom => ?_, fun k hk hclear hroom => ⟨fun hshort => ?_, fun hocc => ?_⟩⟩
  · -- the first page that stops the call, if there is one
    by_cases hstop : ∃ k, k < pageCount va size ∧ (Occupied s.mem pgdir va k ∨
        l.length < tablesNeeded s.mem pgdir (pgRoundDown va) (k + 1))
    · classical
      obtain ⟨hk, hwhy⟩ := Nat.find_spec hstop
      have hbefore : ∀ j < Nat.find hstop, ¬Occupied s.mem pgdir va j ∧
          tablesNeeded s.mem pgdir (pgRoundDown va) (j + 1) ≤ l.length := by
        intro j hj
        have hno := Nat.find_min hstop hj
        rw [not_and, not_or, not_lt] at hno
        exact hno (hj.trans hk)
      generalize Nat.find hstop = k at hk hwhy hbefore
      have hroom : tablesNeeded s.mem pgdir (pgRoundDown va) k ≤ l.length := by
        cases k with
        | zero => simp
        | succ k => exact (hbefore k (Nat.lt_succ_self k)).2
      have hclear : ∀ j < k, ¬Occupied s.mem pgdir va j := fun j hj => (hbefore j hj).1
      rcases hwhy with hocc | hshort
      · rw [mapPages_occupied hl hd hsize hend hk hclear hroom hocc]
        simp
      · obtain ⟨s', hrun, -⟩ := mapPages_short hl hd hsize hend hk hclear hroom hshort pa perm
        rw [hrun]
        simp
    · push Not at hstop
      have hlast := hstop (pageCount va size - 1) (by unfold pageCount; omega)
      obtain ⟨s', l', hrun, -⟩ := mapPages_whole hl hd hsize hend (fun k hk => (hstop k hk).1)
        hlast.2 pa perm
      rw [hrun]
      simp
  · obtain ⟨s', l', hrun, hm⟩ := mapPages_whole hl hd hsize hend hclear hroom pa perm
    exact ⟨s', hrun, hm.eq_drop ▸ hm.rangeMapped hl hpa hperm⟩
  · obtain ⟨s', hrun, hm⟩ := mapPages_short hl hd hsize hend hk hclear hroom hshort pa perm
    exact ⟨s', hrun, hm.rangeMapped hl hpa hperm⟩
  · exact mapPages_occupied hl hd hsize hend hk hclear hroom hocc pa perm

end Outcome

/-- The directory at `0x80500000` is empty. -/
theorem someFree_absent (va : Addr) : ¬Present (someFree 1).mem 0x80500000 va := by
  have hfree : SameOutside 0x80200000 (fun _ => 0) (someFree 1).mem :=
    kfree_outside (by decide) _
  have hentry : pdeOf (someFree 1).mem 0x80500000 va = entry (fun _ => 0) 0x80500000 (pdx va) :=
    hfree.entry (by decide) (pdx_lt va) (by decide)
  rw [Present, hentry]
  exact not_not.mpr (show word32 0 0 0 0 &&& pteP = 0 by decide)

/-- An unaligned range that ends at `2^32`, mapped to frames that wrap around, with the one free
page as its table. -/
theorem map_pages_outcome_top : ∃ s',
    mapPages 0x80500000 0xFFFFEFFF 0x1001 0xFFFFF000 pteW (someFree 1) = .ok (0, s') ∧
      RangeMapped 0x80500000 0xFFFFEFFF 0xFFFFF000 pteW 2 (someFree 1) (somePages 1) s' [] := by
  have hd : DirOk (someFree 1).mem 0x80500000 (somePages 1) :=
    dirOk_of_absent (by decide) (by decide) someFree_absent
  have hneeded : tablesNeeded (someFree 1).mem 0x80500000 (pgRoundDown 0xFFFFEFFF) 2 = 1 := by
    rw [tablesNeeded, dirs_of_absent someFree_absent]
    decide
  have hmain := (map_pages_outcome (someFree_ok 1 (by decide)) hd
    (show PageAligned 0xFFFFF000 by decide) (show pteW &&& (pteW ||| pteU) = pteW by decide)
    (show 1 ≤ (0x1001 : Word).toNat by decide)
    (show (0xFFFFEFFF : Addr).toNat + (0x1001 : Word).toNat ≤ 2 ^ 32 by decide)).2.1
  have hcount : pageCount 0xFFFFEFFF 0x1001 = 2 := by decide
  rw [hcount, hneeded] at hmain
  refine hmain (fun k _ => ?_) (by decide)
  rw [Occupied, pteOf_of_absent someFree_absent]
  decide

end TuixOS
