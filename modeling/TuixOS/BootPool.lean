import TuixOS.BootMemory

/-!
# The pool of free pages after boot

The two halves of memory initialisation fit together: the first `free_range` call leaves the pages
up to 4 MiB on the list, `setup_kvm` takes 65 of them, and the second call adds the rest, which the
new directory maps. `MemoryReady` is what the kernel has then, for every kernel that leaves 65
pages below 4 MiB.
-/

namespace TuixOS

open Lib

/-! ## The pages of a range -/

/-- The `n` pages from `p` on. -/
def pagesFrom (p : Addr) (n : Nat) : List Addr :=
  (List.range n).map fun i => p + BitVec.ofNat 32 (i * 4096)

section Pages
variable {p q vend : Addr} {n : Nat}

theorem pagesFrom_succ (p : Addr) (n : Nat) :
    pagesFrom p (n + 1) = p :: pagesFrom (p + pgSize) n := by
  rw [pagesFrom, List.range_succ_eq_map, List.map_cons, List.map_map, pagesFrom]
  refine congrArg₂ List.cons ?_ ?_
  · rw [Nat.zero_mul]
    exact BitVec.add_zero p
  · refine List.map_congr_left fun i _ => ?_
    apply BitVec.eq_of_toNat_eq
    simp only [Function.comp_apply, BitVec.toNat_add, BitVec.toNat_ofNat, pgSize_toNat]
    omega

@[simp] theorem pagesFrom_length (p : Addr) (n : Nat) : (pagesFrom p n).length = n := by
  simp [pagesFrom]

theorem mem_pagesFrom (hal : PageAligned p) (hfit : p.toNat + n * 4096 ≤ 2 ^ 32) :
    q ∈ pagesFrom p n ↔ PageAligned q ∧ p.toNat ≤ q.toNat ∧ q.toNat + 4096 ≤ p.toNat + n * 4096 := by
  unfold PageAligned at *
  constructor
  · intro hq
    obtain ⟨i, hi, rfl⟩ := List.mem_map.mp hq
    have hi' := List.mem_range.mp hi
    rw [BitVec.toNat_add, BitVec.toNat_ofNat]
    omega
  · intro ⟨halq, hlo, hhi⟩
    refine List.mem_map.mpr ⟨(q.toNat - p.toNat) / 4096, List.mem_range.mpr (by omega), ?_⟩
    apply BitVec.eq_of_toNat_eq
    rw [BitVec.toNat_add, BitVec.toNat_ofNat]
    omega

/-- `free_range` over `n` pages that are not free yet puts them on the list. -/
theorem freeRangeLoop_ok (hend : vend.toNat < 0xFFFFF000) :
    ∀ {n : Nat} {p : Addr} {s : Kmem} {l : List Addr}, PageAligned p → p ≠ 0 →
      p.toNat + n * 4096 ≤ vend.toNat → vend.toNat < p.toNat + (n + 1) * 4096 →
      FreeList s l → (∀ q ∈ pagesFrom p n, q ∉ l) →
      ∃ s', (∀ fuel, n < fuel → freeRangeLoop fuel p vend s = some s') ∧
        FreeList s' ((pagesFrom p n).reverse ++ l) := by
  intro n
  induction n with
  | zero =>
    intro p s l hal _ hlo hhi hl _
    refine ⟨s, fun fuel hfuel => ?_, by simpa [pagesFrom] using hl⟩
    obtain ⟨fuel, rfl⟩ : ∃ f, fuel = f + 1 := ⟨fuel - 1, by omega⟩
    have hloop : ¬p + pgSize ≤ vend := by
      unfold PageAligned at hal
      rw [loop_test (by omega)]
      omega
    rw [freeRangeLoop, if_neg hloop]
  | succ n ih =>
    intro p s l hal h0 hlo hhi hl hfresh
    rw [pagesFrom_succ] at hfresh ⊢
    have hloop : p + pgSize ≤ vend := by
      unfold PageAligned at hal
      rw [loop_test (by omega)]
      omega
    have hnext : (p + pgSize).toNat = p.toNat + 4096 := by
      rw [BitVec.toNat_add, pgSize_toNat]
      omega
    have hfree := hl.kfree hal h0 (hfresh p List.mem_cons_self)
    have hmem : ∀ q ∈ pagesFrom (p + pgSize) n, q ∉ p :: l := by
      intro q hq hmem
      rcases List.mem_cons.mp hmem with rfl | hmem
      · have hle := ((mem_pagesFrom hal.add_pgSize (by omega)).mp hq).2.1
        omega
      · exact hfresh q (List.mem_cons_of_mem p hq) hmem
    have h0' : p + pgSize ≠ 0 := by
      intro he
      rw [he] at hnext
      change 0 = p.toNat + 4096 at hnext
      omega
    obtain ⟨s', hs', hl'⟩ := ih hal.add_pgSize h0' (by omega) (by omega) hfree hmem
    refine ⟨s', fun fuel hfuel => ?_, by simpa using hl'⟩
    obtain ⟨fuel, rfl⟩ : ∃ f, fuel = f + 1 := ⟨fuel - 1, by omega⟩
    rw [freeRangeLoop, if_pos hloop]
    exact hs' fuel (by omega)

/-- `free_range` over a range that starts after page 0 and whose `n` pages are not free yet. -/
theorem freeRange_ok {vstart : Addr} {s : Kmem} {l : List Addr} (hlow : 0 < vstart.toNat)
    (hround : (vstart.toNat + 4095) / 4096 * 4096 + n * 4096 = vend.toNat)
    (hend : vend.toNat < 0xFFFFF000) (hl : FreeList s l)
    (hfresh : ∀ q ∈ pagesFrom (pgRoundUp vstart) n, q ∉ l) :
    ∃ s', (∀ fuel, n < fuel → freeRange fuel vstart vend s = some s') ∧
      FreeList s' ((pagesFrom (pgRoundUp vstart) n).reverse ++ l) := by
  have hup := pgRoundUp_toNat vstart
  have h0 : pgRoundUp vstart ≠ 0 := by
    intro he
    rw [he] at hup
    change 0 = _ at hup
    omega
  exact freeRangeLoop_ok hend (pageAligned_pgRoundUp vstart) h0 (by omega) (by omega) hl hfresh

end Pages

/-! ## A kernel directory takes 65 pages -/

section Covers
variable {pgdir last : Addr} {perm : Word} {s' : Kmem}

/-- A run of `map_pages` that reached its last page has a table for every page before it. -/
theorem mapPagesLoop_covers : ∀ {fuel : Nat} {n : Nat} {start : Addr} {pa : Word} {s : Kmem}
    {l : List Addr} {r : Int}, FreeList s l → DirOk s.mem pgdir l →
    last.toNat = start.toNat + n * 4096 →
    mapPagesLoop pgdir last perm fuel start pa s = .ok (r, s') → 0 ≤ r →
    Finset.Icc (start.toNat / 2 ^ 22) (last.toNat / 2 ^ 22) ⊆ dirs s'.mem pgdir := by
  intro fuel
  induction fuel with
  | zero =>
    intro n start pa s l r _ _ _ hrun
    cases hrun
  | succ fuel ih =>
    intro n start pa s l r hl hd hlast hrun hr
    rcases mapPagesLoop_cases hl hd hrun with
      ⟨rfl, -⟩ | ⟨s₁, l₁, hext, hstart, ⟨rfl, rfl⟩ | ⟨hne, hrest⟩⟩
    · exact absurd hr (by decide)
    · rwa [Finset.Icc_self, Finset.singleton_subset_iff]
    · have hbound := last.isLt
      obtain ⟨n, rfl⟩ : ∃ j, n = j + 1 := by
        refine ⟨n - 1, ?_⟩
        by_contra hn
        exact hne (BitVec.eq_of_toNat_eq (by omega))
      have hnext : (start + pgSize).toNat = start.toNat + 4096 := by
        rw [BitVec.toNat_add, pgSize_toNat]
        omega
      obtain ⟨l', hext'⟩ := mapPagesLoop_extends hext.free hext.dir hrest
      have hcovers := ih (n := n) hext.free hext.dir (by omega) hrest hr
      intro i hi
      rw [Finset.mem_Icc] at hi
      by_cases hi' : i = start.toNat / 2 ^ 22
      · exact hext'.sub (hi' ▸ hstart)
      · exact hcovers (Finset.mem_Icc.mpr ⟨by omega, hi.2⟩)

theorem mapPages_covers {k : Kmap} {s : Kmem} {l : List Addr} {r : Int} (hl : FreeList s l)
    (hd : DirOk s.mem pgdir l) (hk : k.Whole)
    (hrun : mapPages pgdir k.virt (k.physEnd - k.physStart) k.physStart k.perm s = .ok (r, s'))
    (hr : 0 ≤ r) : k.dirs ⊆ dirs s'.mem pgdir := by
  have hpages := hk.pages
  have hpos := hk.pos
  have hfits := hk.fits
  have hal := hk.aligned
  unfold PageAligned at hal
  have hlast : (pgRoundDown (k.virt + k.size - 1)).toNat =
      k.virt.toNat + (k.size.toNat / 4096 - 1) * 4096 := by
    have hsub : (k.virt + k.size - 1).toNat = k.virt.toNat + k.size.toNat - 1 := by bv_omega
    rw [pgRoundDown_toNat, hsub]
    omega
  unfold mapPages at hrun
  rw [hk.aligned.pgRoundDown_eq] at hrun
  have hcover := mapPagesLoop_covers hl hd hlast hrun hr
  refine Finset.Subset.trans (Finset.Icc_subset_Icc_right ?_) hcover
  show (k.virt.toNat + k.size.toNat - 1) / 2 ^ 22 ≤ (pgRoundDown (k.virt + k.size - 1)).toNat / 2 ^ 22
  rw [hlast]
  omega

theorem setupKvmLoop_covers : ∀ {ks : List Kmap} {s : Kmem} {l : List Addr}, FreeList s l →
    DirOk s.mem pgdir l → (∀ k ∈ ks, k.Whole) → setupKvmLoop pgdir ks s = .ok s' →
    kmapsDirs ks ⊆ dirs s'.mem pgdir := by
  intro ks
  induction ks with
  | nil => exact fun _ _ _ _ => Finset.empty_subset _
  | cons k ks ih =>
    intro s l hl hd hwhole hrun
    rw [setupKvmLoop] at hrun
    obtain ⟨⟨r, s₁⟩, hmap, hrun⟩ := bind_eq_ok.mp hrun
    obtain ⟨l₁, hext⟩ := mapPages_extends hl hd hmap
    simp only at hrun
    split_ifs at hrun with hr
    · cases hrun
    · have hfirst := mapPages_covers hl hd (hwhole k List.mem_cons_self) hmap (not_lt.mp hr)
      obtain ⟨l', hext'⟩ := setupKvmLoop_extends hext.free hext.dir hrun
      have hrest := ih hext.free hext.dir (fun k' hk' => hwhole k' (List.mem_cons_of_mem k hk')) hrun
      exact Finset.union_subset (hfirst.trans hext'.sub) hrest

end Covers

/-- A call of `setup_kvm` that returned a directory had 65 pages. -/
theorem setupKvm_needs {kdata pgdir : Addr} {s s' : Kmem} {l : List Addr}
    (hal : PageAligned kdata) (hlo : kernLink < kdata) (hhi : kdata < p2v physTop)
    (hl : FreeList s l) (hrun : setupKvm (initKmappings kdata) s = .ok (pgdir, s'))
    (hnull : pgdir ≠ 0) : 65 ≤ l.length := by
  cases l with
  | nil =>
    unfold setupKvm at hrun
    simp only [hl.kalloc_nil, if_true] at hrun
    cases hrun
    exact absurd rfl hnull
  | cons p l =>
    have hpage := hl.aligned p List.mem_cons_self
    have h0 : p ≠ 0 := hl.ne_zero List.mem_cons_self
    have hnot : p ∉ l := (List.nodup_cons.mp hl.nodup).1
    have habs := absent_memset (m := s.mem) hpage h0
    have hfree := hl.tail.write (sameOutside_memset hpage h0 0 s.mem) hnot
    have hdir := dirOk_of_absent hpage hnot habs
    unfold setupKvm at hrun
    simp only [hl.kalloc_cons, if_neg h0] at hrun
    obtain ⟨s₁, hloop, -⟩ := bind_eq_ok.mp hrun
    have hcover := setupKvmLoop_covers hfree hdir (initKmappings_whole hal hlo hhi) hloop
    obtain ⟨l', hext⟩ := setupKvmLoop_extends hfree hdir hloop
    have hcount := hext.count
    have hcard := Finset.card_le_card hcover
    rw [kmapsDirs_initKmappings hlo hhi, card_kernelDirs] at hcard
    rw [dirs_of_absent habs, Finset.card_empty] at hcount
    rw [List.length_cons]
    omega

/-! ## The pages of the kernel's directory -/

theorem tables_length (m : Mem) (d : Addr) : (tables m d).length = (dirs m d).card := by
  have hset : dirs m d = ((List.range 1024).filter fun i =>
      Present m d (BitVec.ofNat 32 (i * 2 ^ 22))).toFinset := by
    ext i
    simp [dirs]
  rw [hset, List.toFinset_card_of_nodup (List.nodup_range.filter _), tables, List.length_map]

/-- The directory `d` and its tables. -/
def dirPages (m : Mem) (d : Addr) : List Addr := d :: tables m d

theorem mem_dirPages {m : Mem} {d p : Addr} (h : p ∈ dirPages m d) : Owns m d p := by
  rcases List.mem_cons.mp h with rfl | h
  · exact Or.inl rfl
  · exact Or.inr (mem_tables h)

theorem tables_congr {m m' : Mem} {d : Addr} (h : ∀ va, pdeOf m' d va = pdeOf m d va) :
    tables m' d = tables m d := by
  simp only [tables, present_congr (h _), tabOf_congr (h _)]

section KernelDir
variable {kdata pgdir : Addr} {s s' : Kmem} {l : List Addr}

theorem KernelDir.owns_mem (h : KernelDir kdata pgdir s l s') {p : Addr}
    (hp : Owns s'.mem pgdir p) : p ∈ l := by
  rcases hp with rfl | ⟨va, hva, rfl⟩
  · exact h.page
  · exact (h.pde va hva).1

theorem KernelDir.dirPages_nodup (h : KernelDir kdata pgdir s l s') :
    (dirPages s'.mem pgdir).Nodup := by
  refine List.nodup_cons.mpr ⟨fun hmem => ?_, h.dir.tables_nodup⟩
  obtain ⟨va, hva, he⟩ := mem_tables hmem
  exact (h.dir.tab_ne va hva).2.1 he

theorem KernelDir.dirPages_length (h : KernelDir kdata pgdir s l s') :
    (dirPages s'.mem pgdir).length = 65 := by
  rw [dirPages, List.length_cons, tables_length, h.present, card_kernelDirs]

/-- They are the 65 pages taken from the list. -/
theorem KernelDir.dirPages_perm (h : KernelDir kdata pgdir s l s') (hlen : 65 ≤ l.length) :
    (dirPages s'.mem pgdir).Perm (l.take 65) := by
  have hsub : dirPages s'.mem pgdir ⊆ l.take 65 := by
    intro p hp
    have hown := mem_dirPages hp
    have hmem := h.owns_mem hown
    rw [← List.take_append_drop 65 l] at hmem
    exact (List.mem_append.mp hmem).resolve_right (h.dir.owns_not_free hown)
  apply (h.dirPages_nodup.subperm hsub).perm_of_length_le
  rw [h.dirPages_length, List.length_take]
  omega

/-- Writes elsewhere change neither the pages of the directory nor its translation. -/
theorem KernelDir.same {m : Mem} (h : KernelDir kdata pgdir s l s')
    (hsame : SameDir s'.mem m pgdir) :
    dirPages m pgdir = dirPages s'.mem pgdir ∧
      ∀ va, TuixOS.translate m pgdir va = TuixOS.translate s'.mem pgdir va := by
  refine ⟨?_, hsame.translate h.dir.aligned⟩
  rw [dirPages, dirPages, tables_congr (hsame.pdeOf h.dir.aligned)]

end KernelDir

/-! ## What is mapped when it is written -/

/-- Every byte of the page is mapped writable, where the linear mapping has it. -/
def MappedWritable (m : Mem) (pgdir p : Addr) : Prop :=
  ∀ x, pgRoundDown x = p → translate m pgdir x = some ⟨v2p x, true, false⟩

/-- Throughout each `kfree` call of `free_range` the page it writes is mapped writable. -/
def WritesMapped (vstart vend : Addr) (b : BootState) : Prop :=
  ∀ q t, Frees vstart vend b.kmem q t → ∀ m, SameOutside q t.mem m → MappedWritable m b.cr3 q

/-- A range above the pages of the directory in use, which maps it. -/
theorem writesMapped {vstart vend : Addr} {b : BootState} (hd : PageAligned b.cr3)
    (hstart : vstart.toNat ≤ 0x80400000) (hend : vend.toNat < 0xFFFFF000)
    (hbelow : ∀ p, Owns b.kmem.mem b.cr3 p → p.toNat < vstart.toNat)
    (hmap : ∀ x : Addr, vstart.toNat ≤ x.toNat → x.toNat < vend.toNat →
      translate b.kmem.mem b.cr3 x = some ⟨v2p x, true, false⟩) : WritesMapped vstart vend b := by
  intro q t hfree m hm x hx
  have hup := pgRoundUp_toNat vstart
  have hupal := pageAligned_pgRoundUp vstart
  obtain ⟨halq, hle, -, hmem⟩ := hfree.1.writes_below hupal (by omega) hend
  have hlast := (hfree.bounds (by omega) hend).2.2
  have hsame : SameDir b.kmem.mem m b.cr3 := by
    intro y hy
    have hlt := hbelow _ hy
    have hpage := pgRoundDown_toNat y
    unfold PageAligned at hupal halq
    have hne : pgRoundDown y ≠ q := by
      rintro rfl
      omega
    rw [hm y hne, hmem y (by omega)]
  have hnat := congrArg BitVec.toNat hx
  rw [pgRoundDown_toNat] at hnat
  unfold PageAligned at halq
  rw [hsame.translate hd]
  exact hmap x (by omega) (by omega)

/-- `entrypgdir` of `kernel_entry.asm`, at the address `d`: two pages of 4 MiB. -/
structure EntryPgdir (m : Mem) (d : Addr) : Prop where
  aligned : PageAligned d
  entries : ∀ i : Word, i.toNat < 1024 → entry m d i = if i = 0 ∨ i = 512 then 0x83 else 0

theorem EntryPgdir.translate {m : Mem} {d : Addr} (h : EntryPgdir m d) {x : Addr}
    (hlow : 0x80000000 ≤ x.toNat) (hhigh : x.toNat < 0x80400000) :
    translate m d x = some ⟨v2p x, true, false⟩ := by
  have hidx : pdx x = 512 := by
    apply BitVec.eq_of_toNat_eq
    rw [pdx_toNat]
    show _ = 512
    omega
  have hpde : load32 m (d + 4 * pdx x) = 0x83 := by
    have hentry := h.entries (pdx x) (pdx_lt x)
    rwa [if_pos (Or.inr hidx)] at hentry
  have hoff : x &&& 0x003FFFFF#32 = v2p x := by
    apply BitVec.eq_of_toNat_eq
    rw [v2p, BitVec.toNat_sub, BitVec.toNat_and, kernBase_toNat]
    refine (Nat.and_two_pow_sub_one_eq_mod x.toNat 22).trans ?_
    omega
  have hframe : (0x83 : Word) &&& 0xFFC00000#32 = 0 := by decide
  unfold TuixOS.translate
  simp only [hpde, hoff, hframe]
  rw [if_neg (by decide), if_pos (by decide)]
  exact congrArg some (congrArg₂ (fun a w => Translation.mk a w false) BitVec.zero_or rfl)

/-- Its pages lie below the kernel's end. -/
theorem EntryPgdir.owns {m : Mem} {d p : Addr} (h : EntryPgdir m d) (hp : Owns m d p) :
    p = d ∨ p = kernBase := by
  rcases hp with rfl | ⟨va, hva, rfl⟩
  · exact Or.inl rfl
  · right
    have hentry := h.entries (pdx va) (pdx_lt va)
    have hpde : pdeOf m d va = 0x83 := by
      by_contra hne
      rw [Present, pdeOf, hentry] at hva
      rw [pdeOf, hentry] at hne
      split_ifs at hva hne
      · exact hne rfl
      · exact hva BitVec.zero_and
    rw [tabOf, hpde]
    decide

/-! ## The stages of boot -/

theorem parseTagsLoop_mono {m : Mem} : ∀ {n n' : Nat} {tag : Addr} {mi : MemInfo}
    {r : List Addr × MemInfo}, parseTagsLoop m n tag mi = some r → n ≤ n' →
    parseTagsLoop m n' tag mi = some r := by
  intro n
  induction n with
  | zero =>
    intro n' tag mi r hrun
    cases hrun
  | succ n ih =>
    intro n' tag mi r hrun hle
    obtain ⟨n', rfl⟩ : ∃ j, n' = j + 1 := ⟨n' - 1, by omega⟩
    rw [parseTagsLoop] at hrun ⊢
    split_ifs at hrun ⊢ with hend
    · exact hrun
    · obtain ⟨mi₁, htag, hrest⟩ := Option.bind_eq_some_iff.mp hrun
      obtain ⟨r₁, hloop, hret⟩ := Option.bind_eq_some_iff.mp hrest
      refine Option.bind_eq_some_iff.mpr ⟨mi₁, htag, Option.bind_eq_some_iff.mpr ⟨r₁, ?_, hret⟩⟩
      exact ih hloop (by omega)

/-- A parser that returned returns the same with more fuel. -/
theorem parseBootInfo_mono {fuel fuel' : Nat} {k : KernelSymbols} {magic mbiAddr : Word}
    {b b₁ : BootState} (h : parseBootInfo fuel k magic mbiAddr b = .ok b₁) (hle : fuel ≤ fuel') :
    parseBootInfo fuel' k magic mbiAddr b = .ok b₁ := by
  obtain ⟨r, hr, hb⟩ := parseBootInfo_eq_ok.mp h
  refine parseBootInfo_eq_ok.mpr ⟨r, ?_, hb⟩
  unfold parseMultiboot2Info at hr ⊢
  split_ifs at hr ⊢
  · exact hr
  · obtain ⟨r₁, hloop, hret⟩ := Option.bind_eq_some_iff.mp hr
    exact Option.bind_eq_some_iff.mpr ⟨r₁, parseTagsLoop_mono hloop hle, hret⟩

theorem printKmemSize_ok {fuel : Nat} {b : BootState} {l : List Addr} (hl : FreeList b.kmem l)
    (hfuel : 2 ^ 20 ≤ fuel) : printKmemSize fuel b = .ok b := by
  have hlt := hl.length_lt
  have hsize := FreeList.kmemSizeLoop_eq hl.chain fuel 0 (by omega)
  unfold printKmemSize kmemSize
  rw [hsize]
  rfl

/-- A kernel that boot can serve: data on a page of its own after the text, 65 pages between its
end (rounded up) and 4 MiB, and the boot directory among its data. -/
structure BootOk (k : KernelSymbols) (m : Mem) (entrypgdir : Addr) : Prop where
  aligned : PageAligned k.kernelDataStart
  text : kernLink < k.kernelDataStart
  data : k.kernelDataStart ≤ k.kernelEnd
  room : (k.kernelEnd.toNat + 4095) / 4096 * 4096 + 65 * 4096 ≤ bootMapEnd.toNat
  entry : EntryPgdir m entrypgdir
  inside : entrypgdir.toNat < k.kernelEnd.toNat

/-- The pages `kernel_main` has for the allocator. -/
def BootRange (k : KernelSymbols) (p : Addr) : Prop :=
  PageAligned p ∧ (k.kernelEnd.toNat + 4095) / 4096 * 4096 ≤ p.toNat ∧
    p.toNat + 4096 ≤ (p2v physTop).toNat

/-- What the kernel has after memory initialisation: the free list `l`, the pages of its directory,
and nothing else of the range given to the allocator. -/
structure MemoryReady (k : KernelSymbols) (b : BootState) (l : List Addr) : Prop where
  free : FreeList b.kmem l
  dir_nodup : (dirPages b.kmem.mem b.kpgdir).Nodup
  dir_length : (dirPages b.kmem.mem b.kpgdir).length = 65
  partition : ∀ p, BootRange k p ↔ p ∈ l ∨ p ∈ dirPages b.kmem.mem b.kpgdir
  disjoint : ∀ p ∈ l, p ∉ dirPages b.kmem.mem b.kpgdir
  size : ∃ fuel w, kmemSize fuel b.kmem = some w ∧ w.toNat = 4096 * l.length
  kernel : ∀ p ∈ l, ¬OverlapsKernel k p
  mapped : ∀ p, BootRange k p → MappedWritable b.kmem.mem b.kpgdir p
  /-- Also for every directory made later, from whatever the free list is then. -/
  mapped_later : ∀ s l' d s', FreeList s l' →
    setupKvm (initKmappings b.memInfo.kdataStartAddr) s = .ok (d, s') → d ≠ 0 →
    ∀ p, BootRange k p → MappedWritable s'.mem d p

section Boot
variable {k : KernelSymbols} {m : Mem} {entrypgdir : Addr}

namespace BootOk

theorem kdata_lt (h : BootOk k m entrypgdir) : k.kernelDataStart < p2v physTop := by
  have hdata : k.kernelDataStart.toNat ≤ k.kernelEnd.toNat := h.data
  have hroom := h.room
  rw [bootMapEnd_toNat] at hroom
  show k.kernelDataStart.toNat < 0x8E000000
  omega

/-- The kernel's layout maps what lies above the kernel writable. -/
theorem layout (h : BootOk k m entrypgdir) {x : Addr} (hlow : k.kernelEnd.toNat ≤ x.toNat)
    (hhigh : x.toNat < 0x8E000000) :
    kernelLayout k.kernelDataStart x = some ⟨v2p x, true, false⟩ := by
  have htext : 0x80100000 < k.kernelDataStart.toNat := h.text
  have hdata : k.kernelDataStart.toNat ≤ k.kernelEnd.toNat := h.data
  have hbase : kernBase ≤ x := show 0x80000000 ≤ x.toNat by omega
  have htop : x < p2v physTop := hhigh
  have hw : x < kernLink ∨ k.kernelDataStart ≤ x :=
    Or.inr (show k.kernelDataStart.toNat ≤ x.toNat by omega)
  rw [kernelLayout, if_pos ⟨hbase, htop⟩, decide_eq_true hw]

/-- A directory that translates like the kernel's layout maps the allocator's pages. -/
theorem mapped (h : BootOk k m entrypgdir) {m' : Mem} {d : Addr}
    (hlayout : ∀ va, translate m' d va = kernelLayout k.kernelDataStart va) {p : Addr}
    (hp : BootRange k p) : MappedWritable m' d p := by
  intro x hx
  have hnat := congrArg BitVec.toNat hx
  rw [pgRoundDown_toNat] at hnat
  have htop : p.toNat + 4096 ≤ 0x8E000000 := hp.2.2
  have hlow := hp.2.1
  rw [hlayout, h.layout (by omega) (by omega)]

end BootOk

theorem initPhysicalMemory_eq {fuel : Nat} {vstart vend : Addr} {b : BootState} {s : Kmem}
    (h : freeRange fuel vstart vend b.kmem = some s) :
    initPhysicalMemory fuel vstart vend b = .ok { b with kmem := s } := by
  unfold initPhysicalMemory
  rw [h]
  rfl

/-- The first `free_range` call leaves the pages between the kernel and 4 MiB. -/
theorem firstRange_ok (h : BootOk k m entrypgdir) : ∃ s l,
    (∀ fuel, 2 ^ 20 ≤ fuel → freeRange fuel k.kernelEnd bootMapEnd ⟨m, 0⟩ = some s) ∧
      FreeList s l ∧ 65 ≤ l.length ∧ ∀ p, p ∈ l ↔ PageAligned p ∧
        (k.kernelEnd.toNat + 4095) / 4096 * 4096 ≤ p.toNat ∧ p.toNat + 4096 ≤ 0x80400000 := by
  have htext : 0x80100000 < k.kernelDataStart.toNat := h.text
  have hdata : k.kernelDataStart.toNat ≤ k.kernelEnd.toNat := h.data
  have hroom := h.room
  rw [bootMapEnd_toNat] at hroom
  have hup := pgRoundUp_toNat k.kernelEnd
  obtain ⟨n, hn⟩ : ∃ n, (k.kernelEnd.toNat + 4095) / 4096 * 4096 + n * 4096 = 0x80400000 :=
    ⟨(0x80400000 - (k.kernelEnd.toNat + 4095) / 4096 * 4096) / 4096, by omega⟩
  have hnil : FreeList ⟨m, 0⟩ [] := ⟨rfl, by simp⟩
  have hpos : 0 < k.kernelEnd.toNat := by omega
  obtain ⟨s, hs, hl⟩ := freeRange_ok hpos (hn.trans bootMapEnd_toNat.symm) (by decide) hnil (by simp)
  refine ⟨s, _, fun fuel hfuel => hs fuel (by omega), hl, ?_, fun p => ?_⟩
  · rw [List.append_nil, List.length_reverse, pagesFrom_length]
    omega
  · rw [List.append_nil, List.mem_reverse,
      mem_pagesFrom (pageAligned_pgRoundUp k.kernelEnd) (by omega), hup]
    refine and_congr_right fun _ => ?_
    omega

/-- The second call adds the pages from 4 MiB to `PHYSTOP` and writes nothing below. -/
theorem secondRange_ok {s : Kmem} {l : List Addr} (hl : FreeList s l)
    (hlow : ∀ p ∈ l, p.toNat + 4096 ≤ 0x80400000) : ∃ s' pages,
    (∀ fuel, 2 ^ 20 ≤ fuel → freeRange fuel bootMapEnd (p2v physTop) s = some s') ∧
      FreeList s' (pages ++ l) ∧
      (∀ p, p ∈ pages ↔ PageAligned p ∧ 0x80400000 ≤ p.toNat ∧ p.toNat + 4096 ≤ 0x8E000000) ∧
      ∀ x : Addr, x.toNat < 0x80400000 → s'.mem x = s.mem x := by
  have hround : pgRoundUp bootMapEnd = bootMapEnd := by decide
  have hpages : ∀ p, p ∈ pagesFrom (pgRoundUp bootMapEnd) 56320 ↔
      PageAligned p ∧ 0x80400000 ≤ p.toNat ∧ p.toNat + 4096 ≤ 0x8E000000 := fun p => by
    rw [mem_pagesFrom (pageAligned_pgRoundUp _) (by decide), hround]
    exact Iff.rfl
  obtain ⟨s', hs', hl'⟩ := freeRange_ok (n := 56320) (show 0 < bootMapEnd.toNat by decide)
    (show _ = (p2v physTop).toNat by decide) (by decide) hl fun q hq hmem => by
      have hge := ((hpages q).mp hq).2.1
      have hlt := hlow q hmem
      omega
  refine ⟨s', _, fun fuel hfuel => hs' fuel (by omega), hl',
    fun p => List.mem_reverse.trans (hpages p), fun x hx => ?_⟩
  obtain ⟨q, hhead⟩ := freeRangeLoop_head (hs' 56321 (by decide))
  exact (hhead.writes_below (pageAligned_pgRoundUp _) (by decide) (by decide)).2.2.2 x (Or.inl hx)

/-- The two halves together: `l₁` are the pages below 4 MiB, of which the directory took 65. -/
theorem memoryReady (h : BootOk k m entrypgdir) {s₂ s₃ s₄ : Kmem} {l₁ pages : List Addr}
    {pgdir : Addr} {mi : MemInfo} (hkdata : mi.kdataStartAddr = k.kernelDataStart)
    (hk : KernelDir k.kernelDataStart pgdir s₂ l₁ s₃) (hlen : 65 ≤ l₁.length)
    (hmem₁ : ∀ p, p ∈ l₁ ↔ PageAligned p ∧
      (k.kernelEnd.toNat + 4095) / 4096 * 4096 ≤ p.toNat ∧ p.toNat + 4096 ≤ 0x80400000)
    (hmem₂ : ∀ p, p ∈ pages ↔
      PageAligned p ∧ 0x80400000 ≤ p.toNat ∧ p.toNat + 4096 ≤ 0x8E000000)
    (hl₄ : FreeList s₄ (pages ++ l₁.drop 65)) (hsame : SameDir s₃.mem s₄.mem pgdir) :
    MemoryReady k ⟨s₄, mi, pgdir, pgdir⟩ (pages ++ l₁.drop 65) := by
  have hroom := h.room
  rw [bootMapEnd_toNat] at hroom
  have htop : (p2v physTop).toNat = 0x8E000000 := rfl
  obtain ⟨hpages, htranslate⟩ := hk.same hsame
  have hlayout : ∀ va, translate s₄.mem pgdir va = kernelLayout k.kernelDataStart va := fun va =>
    (htranslate va).trans (hk.translate h.aligned h.text h.kdata_lt va)
  have hperm := hk.dirPages_perm hlen
  have hsplit : ∀ p, p ∈ l₁ ↔ p ∈ l₁.drop 65 ∨ p ∈ dirPages s₃.mem pgdir := fun p => by
    rw [hperm.mem_iff, ← List.mem_append, List.mem_append, or_comm, ← List.mem_append,
      List.take_append_drop]
  -- the seam at 4 MiB: a page of the range lies on one side of it
  have hrange : ∀ p, BootRange k p ↔ p ∈ pages ∨ p ∈ l₁ := fun p => by
    rw [BootRange, hmem₁, hmem₂, htop, ← and_or_left]
    refine and_congr_right fun hal => ?_
    unfold PageAligned at hal
    omega
  obtain ⟨w, hw, hsize⟩ := hl₄.kmemSize_eq
  refine ⟨hl₄, ?_, ?_, fun p => ?_, fun p hp hdir => ?_, ⟨_, w, hw, hsize⟩, fun p hp hover => ?_,
    fun p hp => h.mapped hlayout hp, fun s l' d s' hl' hrun hnull p hp => ?_⟩
  · show (dirPages s₄.mem pgdir).Nodup
    rw [hpages]
    exact hk.dirPages_nodup
  · show (dirPages s₄.mem pgdir).length = 65
    rw [hpages]
    exact hk.dirPages_length
  · rw [hrange, hsplit, List.mem_append, or_assoc, hpages]
  · rw [hpages] at hdir
    have hold := (hsplit p).mpr (Or.inr hdir)
    rcases List.mem_append.mp hp with hnew | hdrop
    · have hlow := ((hmem₁ p).mp hold).2.2
      have hhigh := ((hmem₂ p).mp hnew).2.1
      omega
    · exact hk.dir.owns_not_free (mem_dirPages hdir) hdrop
  · have hlow := hover.1
    rcases List.mem_append.mp hp with hnew | hdrop
    · have hhigh := ((hmem₂ p).mp hnew).2.1
      omega
    · have hhigh := ((hmem₁ p).mp (List.mem_of_mem_drop hdrop)).2.1
      omega
  · rw [hkdata] at hrun
    have hlen' := setupKvm_needs h.aligned h.text h.kdata_lt hl' hrun hnull
    obtain ⟨d', t, hrun', hk'⟩ := setupKvm_ok h.aligned h.text h.kdata_lt hl' hlen'
    rw [hrun] at hrun'
    cases hrun'
    exact h.mapped (hk'.translate h.aligned h.text h.kdata_lt) hp

/-- **Memory initialisation at boot.** With the right magic and a kernel that `BootOk` admits,
`kernel_main` gets through its memory initialisation; every page it writes is mapped writable when
it is written, by the boot directory at first and by the kernel's own afterwards, and at the end
every page of the range is free or one of the 65 pages of the kernel's directory. -/
theorem boot_memory (h : BootOk k m entrypgdir) {fuel₀ : Nat} {mbiAddr : Word} {b₁ : BootState}
    (hparse : parseBootInfo fuel₀ k multiboot2BootloaderMagic mbiAddr
      (BootState.init m entrypgdir) = .ok b₁) :
    ∃ fuel b₂ b₃ b₄ l,
      initPhysicalMemory fuel b₁.memInfo.kernelEndAddr bootMapEnd b₁ = .ok b₂ ∧
      initKvm b₂ = .ok b₃ ∧
      initPhysicalMemory fuel bootMapEnd (p2v physTop) b₃ = .ok b₄ ∧
      kernelMain fuel k multiboot2BootloaderMagic mbiAddr (BootState.init m entrypgdir) = .ok b₄ ∧
      WritesMapped b₁.memInfo.kernelEndAddr bootMapEnd b₁ ∧
      WritesMapped bootMapEnd (p2v physTop) b₃ ∧
      MemoryReady k b₄ l := by
  have htext : 0x80100000 < k.kernelDataStart.toNat := h.text
  have hdata : k.kernelDataStart.toNat ≤ k.kernelEnd.toNat := h.data
  have hroom := h.room
  rw [bootMapEnd_toNat] at hroom
  obtain ⟨r, hr, rfl⟩ := parseBootInfo_eq_ok.mp hparse
  obtain ⟨hend, hkdata⟩ := parseMultiboot2Info_kernelEnd hr
  obtain ⟨s₂, l₁, hfirst, hl₁, hlen, hmem₁⟩ := firstRange_ok h
  obtain ⟨pgdir, s₃, hsetup, hk⟩ := setupKvm_ok h.aligned h.text h.kdata_lt hl₁ hlen
  have hdrop : ∀ p ∈ l₁.drop 65, p.toNat + 4096 ≤ 0x80400000 := fun p hp =>
    ((hmem₁ p).mp (List.mem_of_mem_drop hp)).2.2
  obtain ⟨s₄, pages, hsecond, hl₄, hmem₂, hsame⟩ := secondRange_ok hk.free hdrop
  have hlow : ∀ p, Owns s₃.mem pgdir p → p.toNat + 4096 ≤ 0x80400000 := fun p hp =>
    ((hmem₁ p).mp (hk.owns_mem hp)).2.2
  have hdirSame : SameDir s₃.mem s₄.mem pgdir := by
    intro x hx
    have hpage := hlow _ hx
    rw [pgRoundDown_toNat] at hpage
    exact hsame x (by omega)
  have hlayout₃ := hk.translate h.aligned h.text h.kdata_lt
  have hinit : initKvm ⟨s₂, r.2, 0, entrypgdir⟩ = .ok ⟨s₃, r.2, pgdir, pgdir⟩ := by
    simp only [initKvm, hkdata, hsetup, ok_bind, if_neg (hl₁.ne_zero hk.page)]
    rfl
  have hcall₁ : ∀ fuel, 2 ^ 20 ≤ fuel → initPhysicalMemory fuel r.2.kernelEndAddr bootMapEnd
      ⟨⟨m, 0⟩, r.2, 0, entrypgdir⟩ = .ok ⟨s₂, r.2, 0, entrypgdir⟩ := fun fuel hfuel =>
    initPhysicalMemory_eq (hend.symm ▸ hfirst fuel hfuel)
  have hcall₂ : ∀ fuel, 2 ^ 20 ≤ fuel → initPhysicalMemory fuel bootMapEnd (p2v physTop)
      ⟨s₃, r.2, pgdir, pgdir⟩ = .ok ⟨s₄, r.2, pgdir, pgdir⟩ := fun fuel hfuel =>
    initPhysicalMemory_eq (hsecond fuel hfuel)
  have hfuel : 2 ^ 20 ≤ max fuel₀ (2 ^ 20) := le_max_right _ _
  refine ⟨max fuel₀ (2 ^ 20), _, _, _, pages ++ l₁.drop 65, hcall₁ _ hfuel, hinit, hcall₂ _ hfuel,
    ?_, ?_, ?_, ?_⟩
  · unfold kernelMain initFirstHalf
    rw [parseBootInfo_mono hparse (le_max_left _ _)]
    refine bind_eq_ok.mpr ⟨_, rfl, bind_eq_ok.mpr ⟨⟨s₃, r.2, pgdir, pgdir⟩, ?_, ?_⟩⟩
    · exact bind_eq_ok.mpr ⟨_, hcall₁ _ hfuel, bind_eq_ok.mpr ⟨_, printKmemSize_ok hl₁ hfuel,
        bind_eq_ok.mpr ⟨_, hinit, printKmemSize_ok hk.free hfuel⟩⟩⟩
    · exact bind_eq_ok.mpr ⟨_, hcall₂ _ hfuel, printKmemSize_ok hl₄ hfuel⟩
  · refine writesMapped h.entry.aligned ?_ (by decide) ?_ ?_
    · rw [hend]
      omega
    · intro p hp
      rw [hend]
      rcases h.entry.owns hp with rfl | rfl
      · exact h.inside
      · rw [kernBase_toNat]
        omega
    · intro x hx hx'
      rw [hend] at hx
      exact h.entry.translate (by omega) hx'
  · refine writesMapped hk.dir.aligned (le_refl _) (by decide) ?_ ?_
    · intro p hp
      have hp' := hlow p hp
      rw [bootMapEnd_toNat]
      omega
    · intro x hx hx'
      rw [bootMapEnd_toNat] at hx
      exact (hlayout₃ x).trans (h.layout (by omega) hx')
  · exact memoryReady h hkdata hk hlen hmem₁ hmem₂ hl₄ hdirSame

end Boot

/-- Memory that holds nothing but the boot directory at `0x8010A000`. -/
def entryMem : Mem :=
  store32 (store32 (fun _ => 0) (0x8010A000 + 4 * 0) 0x83) (0x8010A000 + 4 * 512) 0x83

theorem entryPgdir_entryMem : EntryPgdir entryMem 0x8010A000 where
  aligned := by decide
  entries i hi := by
    have hd : PageAligned 0x8010A000 := by decide
    have hzero : entry (fun _ => 0) 0x8010A000 i = 0 := word32_zero
    rw [entryMem, entry_store _ hd (by decide) hd hi, entry_store _ hd (by decide) hd hi, hzero]
    simp only [true_and]
    split_ifs <;> simp_all

theorem bootOk_small : BootOk smallKernel entryMem 0x8010A000 where
  aligned := by decide
  text := by decide
  data := by decide
  room := by decide
  entry := entryPgdir_entryMem
  inside := by decide

theorem boot_memory_small : ∃ fuel b₁ b₂ b₃ b₄ l,
    parseBootInfo 1 smallKernel multiboot2BootloaderMagic 0x1000
      (BootState.init entryMem 0x8010A000) = .ok b₁ ∧
    initPhysicalMemory fuel b₁.memInfo.kernelEndAddr bootMapEnd b₁ = .ok b₂ ∧
    initKvm b₂ = .ok b₃ ∧
    initPhysicalMemory fuel bootMapEnd (p2v physTop) b₃ = .ok b₄ ∧
    kernelMain fuel smallKernel multiboot2BootloaderMagic 0x1000
      (BootState.init entryMem 0x8010A000) = .ok b₄ ∧
    WritesMapped b₁.memInfo.kernelEndAddr bootMapEnd b₁ ∧
    WritesMapped bootMapEnd (p2v physTop) b₃ ∧
    MemoryReady smallKernel b₄ l := by
  have hok : parseBootInfo 1 smallKernel multiboot2BootloaderMagic 0x1000
      (BootState.init entryMem 0x8010A000) = .ok _ := parseBootInfo_noTags (by decide)
  obtain ⟨fuel, b₂, b₃, b₄, l, hrest⟩ := boot_memory bootOk_small hok
  exact ⟨fuel, _, b₂, b₃, b₄, l, hok, hrest⟩

end TuixOS
