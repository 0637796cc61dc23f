import TuixOS.Vm

/-!
# The page tables in memory

`pteOf m pgdir va` is the page table entry for `va` that the tables under `pgdir` hold, 0 where
there is no table: the directory as a function of the address. `DirOk` is the shape of a directory
whose tables are distinct pages taken from the allocator.

`walk_pgdir` only adds empty tables (`walkPgdir_ok`), so it changes no entry; `map_pages` writes
exactly the entries of its range (`mapPages_ok`). What both do to the rest of memory and to the
free list is `Extends`.
-/

namespace TuixOS

open Lib

/-! ## Entries of a page -/

/-- Word `i` of the page `p`. -/
def entry (m : Mem) (p : Addr) (i : Word) : Word := load32 m (p + 4 * i)

section Entry
variable {p q : Addr} {i j : Word} {m m' : Mem}

theorem slot_toNat (hp : PageAligned p) (hi : i.toNat < 1024) :
    (p + 4 * i).toNat = p.toNat + 4 * i.toNat := by
  unfold PageAligned at hp
  have := p.isLt
  have h4 : (4 * i).toNat = 4 * i.toNat := by
    rw [BitVec.toNat_mul]
    show 4 * i.toNat % 2 ^ 32 = 4 * i.toNat
    omega
  rw [BitVec.toNat_add, h4]
  omega

theorem slot_page (hp : PageAligned p) (hi : i.toNat < 1024) : pgRoundDown (p + 4 * i) = p := by
  apply BitVec.eq_of_toNat_eq
  rw [pgRoundDown_toNat, slot_toNat hp hi]
  unfold PageAligned at hp
  omega

theorem slot_aligned (hp : PageAligned p) (hi : i.toNat < 1024) : (p + 4 * i).toNat % 4 = 0 := by
  rw [slot_toNat hp hi]
  unfold PageAligned at hp
  omega

theorem slot_ne_zero (hp : PageAligned p) (hi : i.toNat < 1024) (h0 : p ≠ 0) :
    p + 4 * i ≠ 0 := by
  intro h
  have hz := slot_toNat hp hi
  rw [h] at hz
  exact h0 (BitVec.eq_of_toNat_eq (by simp at hz ⊢; omega))

theorem entry_store (v : Word) (hp : PageAligned p) (hi : i.toNat < 1024) (hq : PageAligned q)
    (hj : j.toNat < 1024) : entry (store32 m (p + 4 * i) v) q j =
      if q = p ∧ j = i then v else entry m q j := by
  unfold entry
  split_ifs with h
  · rw [h.1, h.2, load32_store32]
  · refine load32_store32_aligned _ _ _ _ (slot_aligned hp hi) (slot_aligned hq hj) fun he => h ?_
    have hpage : q = p := by rw [← slot_page hq hj, he, slot_page hp hi]
    have hnat := congrArg BitVec.toNat he
    rw [slot_toNat hq hj, slot_toNat hp hi, hpage] at hnat
    exact ⟨hpage, BitVec.eq_of_toNat_eq (by omega)⟩

theorem SameOutside.entry (h : SameOutside p m m') (hq : PageAligned q) (hj : j.toNat < 1024)
    (hne : q ≠ p) : entry m' q j = entry m q j :=
  h.load32 (slot_aligned hq hj) (by rwa [slot_page hq hj])

theorem sameOutside_memset (hp : PageAligned p) (h0 : p ≠ 0) (val : Word) (m : Mem) :
    SameOutside p m (memset p val pgSize m).2 := by
  intro x hx
  rw [memset_apply h0, pgSize_toNat, if_neg]
  rwa [← pgRoundDown_eq_iff hp]

theorem sameOutside_memmove (hp : PageAligned p) (src : Addr) {count : Word}
    (hcount : count ≤ pgSize) (m : Mem) : SameOutside p m (memmove p src count m).2 := by
  intro x hx
  apply memmove_outside
  have hout := mt (pgRoundDown_eq_iff hp).mpr hx
  exact le_trans (show count.toNat ≤ 4096 from hcount) (not_lt.mp hout)

theorem entry_memset (hp : PageAligned p) (h0 : p ≠ 0) (hi : i.toNat < 1024) (m : Mem) :
    entry (memset p 0 pgSize m).2 p i = 0 := by
  have hbyte : ∀ k : Addr, k.toNat < 4 → (memset p 0 pgSize m).2 (p + 4 * i + k) = 0 := by
    intro k hk
    have hnat := slot_toNat hp hi
    have hk' : (p + 4 * i + k - p).toNat = 4 * i.toNat + k.toNat := by
      unfold PageAligned at hp
      have := p.isLt
      rw [BitVec.toNat_sub, BitVec.toNat_add, hnat]
      omega
    rw [memset_apply h0, pgSize_toNat, if_pos (by omega)]
    rfl
  have hbyte0 := hbyte 0 (by decide)
  rw [show p + 4 * i + 0 = p + 4 * i from BitVec.add_zero _] at hbyte0
  rw [entry, load32, hbyte0, hbyte 1 (by decide), hbyte 2 (by decide), hbyte 3 (by decide)]
  exact word32_zero

end Entry

/-! ## Flag bits -/

section Flags
variable {a f b : Word}

theorem aligned_and_low (ha : PageAligned a) (hb : b.toNat < 4096) : a &&& b = 0 := by
  have hb' : b &&& 0xFFF#32 = b := by
    apply BitVec.eq_of_toNat_eq
    rw [BitVec.toNat_and]
    exact (Nat.and_two_pow_sub_one_eq_mod b.toNat 12).trans (Nat.mod_eq_of_lt hb)
  have ha' : a &&& 0xFFF#32 = 0 := by
    apply BitVec.eq_of_toNat_eq
    rw [BitVec.toNat_and]
    exact (Nat.and_two_pow_sub_one_eq_mod a.toNat 12).trans ha
  rw [← hb', BitVec.and_comm b, ← BitVec.and_assoc, ha']
  exact BitVec.zero_and

theorem or_and_low (ha : PageAligned a) (hb : b.toNat < 4096) : (a ||| f) &&& b = f &&& b := by
  rw [BitVec.and_or_distrib_right, aligned_and_low ha hb]
  exact BitVec.zero_or

theorem pteAddr_aligned (ha : PageAligned a) : pteAddr a = a := by
  apply BitVec.eq_of_toNat_eq
  rw [pteAddr_toNat]
  unfold PageAligned at ha
  omega

theorem pteAddr_or (ha : PageAligned a) (hf : f.toNat < 4096) : pteAddr (a ||| f) = a := by
  have hf' : pteAddr f = 0 := by
    apply BitVec.eq_of_toNat_eq
    rw [pteAddr_toNat]
    show f.toNat / 4096 * 4096 = 0
    omega
  rw [pteAddr, BitVec.and_or_distrib_right]
  exact (congrArg₂ (· ||| ·) (pteAddr_aligned ha) hf').trans BitVec.or_zero

theorem pageAligned_pteAddr (a : Word) : PageAligned (pteAddr a) := by
  rw [PageAligned, pteAddr_toNat]
  omega

theorem or_offset (ha : PageAligned a) (va : Addr) :
    a ||| (va &&& 0xFFF#32) = a + (va - pgRoundDown va) := by
  have hoff : va &&& 0xFFF#32 = va - pgRoundDown va := by
    apply BitVec.eq_of_toNat_eq
    have := va.isLt
    rw [BitVec.toNat_sub, pgRoundDown_toNat, and_offset_mask]
    omega
  rw [← hoff, BitVec.add_eq_or_of_and_eq_zero]
  apply aligned_and_low ha
  rw [and_offset_mask]
  exact Nat.mod_lt _ (by decide)

end Flags

/-- The flags `walk_pgdir` gives a directory entry. -/
def dirFlags : Word := pteP ||| pteW ||| pteU

theorem or_dirFlags (a : Word) : a ||| pteP ||| pteW ||| pteU = a ||| dirFlags := by
  rw [dirFlags, BitVec.or_assoc, BitVec.or_assoc, ← BitVec.or_assoc pteP]

/-! ## The directory as a function of the address -/

/-- The directory entry for `va`. -/
def pdeOf (m : Mem) (pgdir va : Addr) : Word := entry m pgdir (pdx va)

def Present (m : Mem) (pgdir va : Addr) : Prop := pdeOf m pgdir va &&& pteP ≠ 0

instance (m : Mem) (pgdir va : Addr) : Decidable (Present m pgdir va) :=
  inferInstanceAs (Decidable (_ ≠ _))

/-- The page table the directory entry points to. -/
def tabOf (m : Mem) (pgdir va : Addr) : Addr := p2v (pteAddr (pdeOf m pgdir va))

/-- The page table entry for `va`, 0 without a page table. -/
def pteOf (m : Mem) (pgdir va : Addr) : Word :=
  if Present m pgdir va then entry m (tabOf m pgdir va) (ptx va) else 0

/-- The shape of a directory: its tables are distinct pages, none of them free or the directory. -/
structure DirOk (m : Mem) (pgdir : Addr) (l : List Addr) : Prop where
  aligned : PageAligned pgdir
  not_free : pgdir ∉ l
  tab_ne : ∀ va, Present m pgdir va →
    tabOf m pgdir va ≠ 0 ∧ tabOf m pgdir va ≠ pgdir ∧ tabOf m pgdir va ∉ l
  tab_inj : ∀ va va', Present m pgdir va → Present m pgdir va' →
    tabOf m pgdir va = tabOf m pgdir va' → pdx va = pdx va'

theorem pdx_lt (va : Addr) : (pdx va).toNat < 1024 := by
  have := va.isLt
  rw [pdx_toNat]
  omega

theorem ptx_lt (va : Addr) : (ptx va).toNat < 1024 := by
  rw [ptx_toNat]
  omega

theorem pdx_eq_iff {va va' : Addr} : pdx va' = pdx va ↔ va'.toNat / 2 ^ 22 = va.toNat / 2 ^ 22 := by
  rw [← pdx_toNat, ← pdx_toNat]
  exact ⟨congrArg _, BitVec.eq_of_toNat_eq⟩

theorem page_eq_iff {va va' : Addr} :
    pdx va' = pdx va ∧ ptx va' = ptx va ↔ va'.toNat / 4096 = va.toNat / 4096 := by
  have hptx : ptx va' = ptx va ↔ (ptx va').toNat = (ptx va).toNat :=
    ⟨congrArg _, BitVec.eq_of_toNat_eq⟩
  rw [pdx_eq_iff, hptx, ptx_toNat, ptx_toNat]
  omega

theorem pageAligned_tabOf (m : Mem) (pgdir va : Addr) : PageAligned (tabOf m pgdir va) :=
  (pageAligned_pteAddr _).p2v

section View
variable {m m' : Mem} {pgdir va va' : Addr}

theorem pdeOf_congr (h : pdx va' = pdx va) : pdeOf m pgdir va' = pdeOf m pgdir va := by
  rw [pdeOf, pdeOf, h]

theorem present_congr (h : pdeOf m' pgdir va = pdeOf m pgdir va) :
    Present m' pgdir va ↔ Present m pgdir va := by
  rw [Present, Present, h]

theorem tabOf_congr (h : pdeOf m' pgdir va = pdeOf m pgdir va) :
    tabOf m' pgdir va = tabOf m pgdir va := by
  rw [tabOf, tabOf, h]

/-- The shape depends on the directory page only. -/
theorem DirOk.congr {l : List Addr} (h : DirOk m pgdir l)
    (hpde : ∀ va, pdeOf m' pgdir va = pdeOf m pgdir va) : DirOk m' pgdir l where
  aligned := h.aligned
  not_free := h.not_free
  tab_ne va hp := by
    rw [tabOf_congr (hpde va)]
    exact h.tab_ne va ((present_congr (hpde va)).mp hp)
  tab_inj va va' hp hp' heq := by
    rw [tabOf_congr (hpde va), tabOf_congr (hpde va')] at heq
    exact h.tab_inj va va' ((present_congr (hpde va)).mp hp) ((present_congr (hpde va')).mp hp') heq

/-- Writes to a page that is neither the directory nor one of its tables change no entry. -/
theorem DirOk.pteOf_outside {l : List Addr} {p : Addr} (h : DirOk m pgdir l)
    (hm : SameOutside p m m') (hp : p ≠ pgdir)
    (htab : ∀ va, Present m pgdir va → tabOf m pgdir va ≠ p) :
    (∀ va, pdeOf m' pgdir va = pdeOf m pgdir va) ∧ ∀ va, pteOf m' pgdir va = pteOf m pgdir va := by
  have hpde : ∀ va, pdeOf m' pgdir va = pdeOf m pgdir va := fun va =>
    hm.entry h.aligned (pdx_lt va) hp.symm
  refine ⟨hpde, fun va => ?_⟩
  unfold pteOf
  rw [tabOf_congr (hpde va)]
  by_cases hv : Present m pgdir va
  · rw [if_pos hv, if_pos ((present_congr (hpde va)).mpr hv)]
    exact hm.entry (pageAligned_tabOf _ _ _) (ptx_lt va) (htab va hv)
  · rw [if_neg hv, if_neg fun hv' => hv ((present_congr (hpde va)).mp hv')]

end View

/-! ### One page table entry is written -/

section SetPte
variable {m : Mem} {pgdir va : Addr} {l : List Addr}

theorem DirOk.pdeOf_setPte (h : DirOk m pgdir l) (hp : Present m pgdir va) (v : Word) (va' : Addr) :
    pdeOf (store32 m (tabOf m pgdir va + 4 * ptx va) v) pgdir va' = pdeOf m pgdir va' := by
  rw [pdeOf, entry_store v (pageAligned_tabOf _ _ _) (ptx_lt va) h.aligned (pdx_lt va'), if_neg]
  · rfl
  · exact fun he => (h.tab_ne va hp).2.1 he.1.symm

theorem DirOk.pteOf_setPte (h : DirOk m pgdir l) (hp : Present m pgdir va) (v : Word) (va' : Addr) :
    pteOf (store32 m (tabOf m pgdir va + 4 * ptx va) v) pgdir va' =
      if va'.toNat / 4096 = va.toNat / 4096 then v else pteOf m pgdir va' := by
  have hpde := h.pdeOf_setPte hp v va'
  unfold pteOf
  rw [tabOf_congr hpde]
  by_cases hp' : Present m pgdir va'
  · rw [if_pos hp', if_pos ((present_congr hpde).mpr hp'),
      entry_store v (pageAligned_tabOf _ _ _) (ptx_lt va) (pageAligned_tabOf _ _ _) (ptx_lt va')]
    congr 1
    rw [← page_eq_iff, eq_iff_iff]
    constructor
    · rintro ⟨htab, hidx⟩
      exact ⟨h.tab_inj va' va hp' hp htab, hidx⟩
    · rintro ⟨hdir, hidx⟩
      exact ⟨by rw [tabOf, tabOf, pdeOf_congr hdir], hidx⟩
  · have hne : va'.toNat / 4096 ≠ va.toNat / 4096 := by
      intro he
      have hdir := (page_eq_iff.mpr he).1
      apply hp'
      rwa [Present, pdeOf_congr hdir]
    rw [if_neg hp', if_neg fun hq => hp' ((present_congr hpde).mp hq), if_neg hne]

end SetPte

/-! ### A page table is added -/

/-- Memory after `walk_pgdir` has cleared the page `p` and entered it for `va`. -/
def addTab (m : Mem) (pgdir va p : Addr) : Mem :=
  store32 (memset p 0 pgSize m).2 (pgdir + 4 * pdx va) (v2p p ||| dirFlags)

section AddTab
variable {m : Mem} {pgdir va p : Addr} {l : List Addr}

theorem tab_dirFlags (hp : PageAligned p) : p2v (pteAddr (v2p p ||| dirFlags)) = p := by
  rw [pteAddr_or hp.v2p (by decide), p2v_v2p]

theorem dirFlags_present (hp : PageAligned p) : (v2p p ||| dirFlags) &&& pteP ≠ 0 := by
  rw [or_and_low hp.v2p (by decide)]
  decide

theorem DirOk.pdeOf_addTab (h : DirOk m pgdir (p :: l)) (hp : PageAligned p) (h0 : p ≠ 0)
    (va' : Addr) : pdeOf (addTab m pgdir va p) pgdir va' =
      if pdx va' = pdx va then v2p p ||| dirFlags else pdeOf m pgdir va' := by
  have hne : pgdir ≠ p := fun he => h.not_free (he ▸ List.mem_cons_self)
  rw [pdeOf, addTab, entry_store _ h.aligned (pdx_lt va) h.aligned (pdx_lt va')]
  by_cases hidx : pdx va' = pdx va
  · rw [if_pos ⟨rfl, hidx⟩, if_pos hidx]
  · rw [if_neg fun he => hidx he.2, if_neg hidx]
    exact (sameOutside_memset hp h0 0 m).entry h.aligned (pdx_lt va') hne

theorem DirOk.present_addTab (h : DirOk m pgdir (p :: l)) (hp : PageAligned p) (h0 : p ≠ 0)
    (va' : Addr) : Present (addTab m pgdir va p) pgdir va' ↔
      pdx va' = pdx va ∨ Present m pgdir va' := by
  rw [Present, h.pdeOf_addTab hp h0]
  split_ifs with hidx
  · exact iff_of_true (dirFlags_present hp) (Or.inl hidx)
  · exact (or_iff_right hidx).symm

theorem DirOk.tabOf_addTab (h : DirOk m pgdir (p :: l)) (hp : PageAligned p) (h0 : p ≠ 0)
    (va' : Addr) : tabOf (addTab m pgdir va p) pgdir va' =
      if pdx va' = pdx va then p else tabOf m pgdir va' := by
  rw [tabOf, h.pdeOf_addTab hp h0]
  split_ifs with hidx
  · exact tab_dirFlags hp
  · rfl

/-- A new table is empty, so it changes no entry. -/
theorem DirOk.pteOf_addTab (h : DirOk m pgdir (p :: l)) (hp : PageAligned p) (h0 : p ≠ 0)
    (habs : ¬Present m pgdir va) (va' : Addr) :
    pteOf (addTab m pgdir va p) pgdir va' = pteOf m pgdir va' := by
  have hne : p ≠ pgdir := fun he => h.not_free (he ▸ List.mem_cons_self)
  unfold pteOf
  rw [h.tabOf_addTab hp h0]
  by_cases hidx : pdx va' = pdx va
  · have habs' : ¬Present m pgdir va' := by rwa [Present, pdeOf_congr hidx]
    rw [if_neg habs', if_pos ((h.present_addTab hp h0 va').mpr (Or.inl hidx)), if_pos hidx, addTab,
      entry_store _ h.aligned (pdx_lt va) hp (ptx_lt va'), if_neg fun he => hne he.1]
    exact entry_memset hp h0 (ptx_lt va') m
  · rw [if_neg hidx]
    by_cases hp' : Present m pgdir va'
    · obtain ⟨-, hdir, hfree⟩ := h.tab_ne va' hp'
      have htab : tabOf m pgdir va' ≠ p := fun he => hfree (he ▸ List.mem_cons_self)
      rw [if_pos hp', if_pos ((h.present_addTab hp h0 va').mpr (Or.inr hp')), addTab,
        entry_store _ h.aligned (pdx_lt va) (pageAligned_tabOf _ _ _) (ptx_lt va'),
        if_neg fun he => hdir he.1]
      exact (sameOutside_memset hp h0 0 m).entry (pageAligned_tabOf _ _ _) (ptx_lt va') htab
    · rw [if_neg hp', if_neg fun hq => ((h.present_addTab hp h0 va').mp hq).elim hidx hp']

theorem DirOk.addTab (h : DirOk m pgdir (p :: l)) (hp : PageAligned p) (h0 : p ≠ 0)
    (hnot : p ∉ l) : DirOk (addTab m pgdir va p) pgdir l where
  aligned := h.aligned
  not_free hmem := h.not_free (List.mem_cons_of_mem p hmem)
  tab_ne va' hp' := by
    rw [h.tabOf_addTab hp h0]
    split_ifs with hidx
    · exact ⟨h0, fun he => h.not_free (he ▸ List.mem_cons_self), hnot⟩
    · have hold := ((h.present_addTab hp h0 va').mp hp').resolve_left hidx
      obtain ⟨h1, h2, h3⟩ := h.tab_ne va' hold
      exact ⟨h1, h2, fun hmem => h3 (List.mem_cons_of_mem p hmem)⟩
  tab_inj va₁ va₂ hp₁ hp₂ heq := by
    rw [h.present_addTab hp h0] at hp₁ hp₂
    rw [h.tabOf_addTab hp h0, h.tabOf_addTab hp h0] at heq
    have hfresh : ∀ va', Present m pgdir va' → tabOf m pgdir va' ≠ p := fun va' hv he =>
      (h.tab_ne va' hv).2.2 (he ▸ List.mem_cons_self)
    split_ifs at heq with h1 h2 h2
    · exact h1.trans h2.symm
    · exact absurd heq.symm (hfresh va₂ (hp₂.resolve_left h2))
    · exact absurd heq (hfresh va₁ (hp₁.resolve_left h1))
    · exact h.tab_inj va₁ va₂ (hp₁.resolve_left h1) (hp₂.resolve_left h2) heq

/-- Only the new table and the directory are written. -/
theorem DirOk.addTab_outside (h : DirOk m pgdir (p :: l)) (hp : PageAligned p) (h0 : p ≠ 0)
    (va x : Addr) (hx : pgRoundDown x ≠ pgdir) (hx' : pgRoundDown x ≠ p) :
    TuixOS.addTab m pgdir va p x = m x :=
  (sameOutside_store32 _ _ (slot_aligned h.aligned (pdx_lt va))
    (slot_page h.aligned (pdx_lt va)) x hx).trans (sameOutside_memset hp h0 0 m x hx')

end AddTab

end TuixOS
