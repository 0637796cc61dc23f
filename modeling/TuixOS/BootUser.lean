import TuixOS.InitUser

/-!
# From boot to user mode

`kernel_main` makes the first process on the memory that its first half has left, and `launch_first_proc` switches
to it. Between these the drivers and the scheduler write to the kernel's own data, which is none of the pages that
the allocator has or has given out (`Separate.static`), so the process comes out in user mode, at the first byte of
its code, as `init_user` has filled it in.
-/

namespace TuixOS

open Lib

/-! ## Writes to the kernel's own data -/

/-- The page is free, or a directory is made of it. -/
def VmState.Uses (st : VmState) (l : List Addr) (p : Addr) : Prop :=
  p ∈ l ∨ ∃ d ∈ st.dirs, Owns st.kmem.mem d p

section Static
variable {st : VmState} {l : List Addr} {m : Mem}

theorem FreeList.static {s : Kmem} (h : FreeList s l) (hm : ∀ x, pgRoundDown x ∈ l → m x = s.mem x) :
    FreeList { s with mem := m } l where
  chain := by
    refine h.chain.congr fun p hp => ?_
    have hal := h.aligned p hp
    refine load32_page ?_ fun x hx => hm x ?_
    · unfold PageAligned at hal
      omega
    · rwa [hx, hal.pgRoundDown_eq]
  aligned := h.aligned

theorem Separate.static (h : Separate st l) (hm : ∀ x, st.Uses l (pgRoundDown x) → m x = st.kmem.mem x) :
    Separate { st with kmem := { st.kmem with mem := m } } l ∧
      ∀ d ∈ st.dirs, SameDir st.kmem.mem m d := by
  have hsame : ∀ d ∈ st.dirs, SameDir st.kmem.mem m d := fun d hd x hx => hm x (Or.inr ⟨d, hd, hx⟩)
  have howns : ∀ d ∈ st.dirs, ∀ q, Owns m d q ↔ Owns st.kmem.mem d q := fun d hd =>
    (hsame d hd).owns_iff (h.dirOk d hd).aligned
  refine ⟨⟨h.free.static fun x hx => hm x (Or.inl hx),
    fun d hd => h.dirOk_same hd (hsame d hd) (List.Subset.refl l), h.dirs_nodup, ?_, h.frames_nodup, ?_⟩, hsame⟩
  · intro d hd d' hd' hne q hq
    rw [howns d' hd']
    exact h.apart d hd d' hd' hne q ((howns d hd q).mp hq)
  · intro f hf
    obtain ⟨hal, h0, hfree, hown⟩ := h.frame f hf
    exact ⟨hal, h0, hfree, fun d hd hq => hown d hd ((howns d hd f).mp hq)⟩

end Static

/-- An address space where its tables and its page have not been written. -/
theorem UserSpace.static {m m' : Mem} {pgdir frame : Addr} {code : Addr → Byte} {size : Word}
    (h : UserSpace m pgdir frame code size) (hd : PageAligned pgdir) (hframe : PageAligned frame)
    (hsame : SameDir m m' pgdir) (hm : ∀ x, pgRoundDown x = frame → m' x = m x) :
    UserSpace m' pgdir frame code size where
  reachable va := by
    rw [← h.reachable va]
    have hpde := hsame.pdeOf hd va
    by_cases hp : Present m pgdir va
    · have hpte := hsame.entry hp (ptx_lt va)
      rw [UserReachable, UserReachable, tabOf_congr hpde, hpde, hpte]
    · exact iff_of_false (fun hreach => hp ((present_congr hpde).mp hreach.1.1)) fun hreach => hp hreach.1.1
  page va hva := (hsame.translate hd va).trans (h.page va hva)
  not_dir := h.not_dir
  not_table va hva := by
    have hpde := hsame.pdeOf hd va
    rw [tabOf_congr hpde]
    exact h.not_table va ((present_congr hpde).mp hva)
  alone va hlow hhigh := (hsame.translate hd va).trans (h.alone va hlow hhigh)
  contents i hi := by
    rw [← h.contents i hi]
    refine hm _ ?_
    rw [pgRoundDown_eq_iff hframe, BitVec.add_comm, BitVec.add_sub_cancel]
    exact hi

/-! ## The pool that boot leaves -/

section Boot
variable {k : KernelSymbols} {m : Mem} {entrypgdir : Addr}

/-- What `init_user` finds: the kernel's directory, 68 free pages and more, all of them behind the kernel. -/
structure UserPool (k : KernelSymbols) (b : BootState) (l : List Addr) : Prop where
  separate : Separate ⟨b.kmem, [b.kpgdir], []⟩ l
  enough : 68 ≤ l.length
  behind : ∀ p, p ∈ l ∨ Owns b.kmem.mem b.kpgdir p → k.kernelEnd.toNat ≤ p.toNat
  kernel : ∀ va, translate b.kmem.mem b.kpgdir va = kernelLayout k.kernelDataStart va

theorem userPool (h : BootOk k m entrypgdir) {s₂ s₃ s₄ : Kmem} {l₁ pages : List Addr} {pgdir : Addr}
    {mi : MemInfo} (hk : KernelDir k.kernelDataStart pgdir s₂ l₁ s₃)
    (hmem₁ : ∀ p, p ∈ l₁ ↔ PageAligned p ∧
      (k.kernelEnd.toNat + 4095) / 4096 * 4096 ≤ p.toNat ∧ p.toNat + 4096 ≤ 0x80400000)
    (hmem₂ : ∀ p, p ∈ pages ↔
      PageAligned p ∧ 0x80400000 ≤ p.toNat ∧ p.toNat + 4096 ≤ 0x8E000000)
    (hl₄ : FreeList s₄ (pages ++ l₁.drop 65)) (hsame : SameDir s₃.mem s₄.mem pgdir) :
    UserPool k ⟨s₄, mi, pgdir, pgdir⟩ (pages ++ l₁.drop 65) := by
  have hroom := h.room
  rw [bootMapEnd_toNat] at hroom
  have hpde := hsame.pdeOf hk.dir.aligned
  have howns := hsame.owns_iff hk.dir.aligned
  have hold : ∀ p, Owns s₄.mem pgdir p → p ∈ l₁ := fun p hp => hk.owns_mem ((howns p).mp hp)
  have hnot : ∀ p, Owns s₃.mem pgdir p → p ∉ pages ++ l₁.drop 65 := by
    intro p hp hmem
    rcases List.mem_append.mp hmem with hnew | hdrop
    · have hlow := ((hmem₁ p).mp (hk.owns_mem hp)).2.2
      have hhigh := ((hmem₂ p).mp hnew).2.1
      omega
    · exact hk.dir.owns_not_free hp hdrop
  have hdir : DirOk s₃.mem pgdir (pages ++ l₁.drop 65) :=
    ⟨hk.dir.aligned, hnot pgdir (Or.inl rfl), fun va hva => ⟨(hk.dir.tab_ne va hva).1,
      (hk.dir.tab_ne va hva).2.1, hnot _ (Or.inr ⟨va, hva, rfl⟩)⟩, hk.dir.tab_inj⟩
  refine ⟨⟨hl₄, fun d hd => ?_, List.nodup_singleton pgdir, fun d hd d' hd' hne => ?_, List.nodup_nil,
    fun f hf => absurd hf List.not_mem_nil⟩, ?_, fun p hp => ?_, fun va => ?_⟩
  · rw [List.mem_singleton.mp hd]
    exact hdir.congr hpde
  · exact absurd ((List.mem_singleton.mp hd).trans (List.mem_singleton.mp hd').symm) hne
  · -- the first 68 pages behind 4 MiB are there
    have hsub : pagesFrom 0x80400000 68 ⊆ pages ++ l₁.drop 65 := fun p hp => by
      obtain ⟨hal, hlo, hhi⟩ := (mem_pagesFrom (by decide) (by decide)).mp hp
      have hlo' : 0x80400000 ≤ p.toNat := hlo
      have hhi' : p.toNat + 4096 ≤ 0x80400000 + 68 * 4096 := hhi
      exact List.mem_append_left _ ((hmem₂ p).mpr ⟨hal, hlo', by omega⟩)
    have hnodup : (pagesFrom 0x80400000 68).Nodup := by decide
    have hle := (hnodup.subperm hsub).length_le
    rwa [pagesFrom_length] at hle
  · rcases hp with hmem | hown
    · rcases List.mem_append.mp hmem with hnew | hdrop
      · have hhigh := ((hmem₂ p).mp hnew).2.1
        omega
      · have hlow := ((hmem₁ p).mp (List.mem_of_mem_drop hdrop)).2.1
        omega
    · have hlow := ((hmem₁ p).mp (hold p hown)).2.1
      omega
  · exact (hsame.translate hk.dir.aligned va).trans (hk.translate h.aligned h.text h.kdata_lt va)

/-- `kernel_main` up to `init_pic`. -/
theorem kernelMain_userPool (h : BootOk k m entrypgdir) {fuel₀ : Nat} {mbiAddr : Word} {b₁ : BootState}
    (hparse : parseBootInfo fuel₀ k multiboot2BootloaderMagic mbiAddr
      (BootState.init m entrypgdir) = .ok b₁) :
    ∃ fuel b l, kernelMain fuel k multiboot2BootloaderMagic mbiAddr (BootState.init m entrypgdir) = .ok b ∧
      b.memInfo.kdataStartAddr = k.kernelDataStart ∧ b.cr3 = b.kpgdir ∧ UserPool k b l := by
  obtain ⟨r, hr, rfl⟩ := parseBootInfo_eq_ok.mp hparse
  obtain ⟨hend, hkdata⟩ := parseMultiboot2Info_kernelEnd hr
  obtain ⟨s₂, l₁, hfirst, hl₁, hlen, hmem₁⟩ := firstRange_ok h
  obtain ⟨pgdir, s₃, hsetup, hk⟩ := setupKvm_ok h.aligned h.text h.kdata_lt hl₁ hlen
  have hbelow : ∀ p ∈ l₁, p.toNat + 4096 ≤ 0x80400000 := fun p hp => ((hmem₁ p).mp hp).2.2
  obtain ⟨s₄, pages, hsecond, hl₄, hmem₂, hlow⟩ :=
    secondRange_ok hk.free fun p hp => hbelow p (List.mem_of_mem_drop hp)
  have hsame : SameDir s₃.mem s₄.mem pgdir := by
    intro x hx
    have hpage := hbelow _ (hk.owns_mem hx)
    rw [pgRoundDown_toNat] at hpage
    exact hlow x (by omega)
  have hfuel : 2 ^ 20 ≤ max fuel₀ (2 ^ 20) := le_max_right _ _
  have hinit : initKvm ⟨s₂, r.2, 0, entrypgdir⟩ = .ok ⟨s₃, r.2, pgdir, pgdir⟩ := by
    simp only [initKvm, hkdata, hsetup, ok_bind, if_neg (hl₁.ne_zero hk.page)]
    rfl
  have hhalf : initFirstHalf (max fuel₀ (2 ^ 20)) ⟨⟨m, 0⟩, r.2, 0, entrypgdir⟩ =
      .ok ⟨s₃, r.2, pgdir, pgdir⟩ := by
    rw [initFirstHalf, initPhysicalMemory_eq (hend.symm ▸ hfirst _ hfuel), ok_bind,
      printKmemSize_ok hl₁ hfuel, ok_bind, hinit, ok_bind, printKmemSize_ok hk.free hfuel]
  refine ⟨max fuel₀ (2 ^ 20), ⟨s₄, r.2, pgdir, pgdir⟩, pages ++ l₁.drop 65, ?_, hkdata, rfl,
    userPool h hk hmem₁ hmem₂ hl₄ hsame⟩
  rw [kernelMain, parseBootInfo_mono hparse (le_max_left _ _), ok_bind]
  show (initFirstHalf _ ⟨⟨m, 0⟩, r.2, 0, entrypgdir⟩ >>= _) = _
  rw [hhalf, ok_bind, initPhysicalMemory_eq (hsecond _ hfuel), ok_bind, printKmemSize_ok hl₄ hfuel]

/-- The code of the first process is part of the kernel. -/
structure LinkedCode (k : KernelSymbols) (u : UserSymbols) : Prop where
  page : u.userInitCodeSize ≤ pgSize
  not_null : u.userInitCode ≠ 0
  inside : u.userInitCode.toNat + u.userInitCodeSize.toNat ≤ k.kernelEnd.toNat

theorem LinkedCode.codeImage {u : UserSymbols} {l : List Addr} (h : LinkedCode k u)
    (hbehind : ∀ p ∈ l, k.kernelEnd.toNat ≤ p.toNat) : CodeImage u.userInitCode u.userInitCodeSize l where
  page := h.page
  not_null := h.not_null
  fits := h.inside.trans k.kernelEnd.isLt.le
  apart i hi hmem := by
    have hlow := hbehind _ hmem
    have hinside := h.inside
    have hend := k.kernelEnd.isLt
    rw [pgRoundDown_toNat, BitVec.toNat_add] at hlow
    omega

/-- What the drivers leave of the state: they write to the kernel's own data only. -/
structure Driven (k : KernelSymbols) (s s' : Kmem) : Prop where
  freelist : s'.freelist = s.freelist
  behind : ∀ x : Addr, k.kernelEnd.toNat ≤ x.toNat → s'.mem x = s.mem x

theorem UserPool.driven {b : BootState} {l : List Addr} {km : Kmem} (h : UserPool k b l)
    (hkm : Driven k b.kmem km) : UserPool k { b with kmem := km } l := by
  obtain ⟨mem, freelist⟩ := km
  obtain rfl : freelist = b.kmem.freelist := hkm.freelist
  have hbehind : ∀ x, (⟨b.kmem, [b.kpgdir], []⟩ : VmState).Uses l (pgRoundDown x) → mem x = b.kmem.mem x := by
    intro x hx
    have hpage : k.kernelEnd.toNat ≤ (pgRoundDown x).toNat := by
      rcases hx with hmem | ⟨d, hd, hown⟩
      · exact h.behind _ (Or.inl hmem)
      · exact h.behind _ (Or.inr (List.mem_singleton.mp hd ▸ hown))
    refine hkm.behind x ?_
    rw [pgRoundDown_toNat] at hpage
    omega
  obtain ⟨hsep, hsame⟩ := h.separate.static hbehind
  have hdir := hsame b.kpgdir List.mem_cons_self
  have hal := (h.separate.dirOk b.kpgdir List.mem_cons_self).aligned
  refine ⟨hsep, h.enough, fun p hp => h.behind p (hp.imp_right (hdir.owns_iff hal p).mp), fun va => ?_⟩
  exact (hdir.translate hal va).trans (h.kernel va)

/-- **The first process.** A kernel that boot admits, with its user code inside, comes through memory
initialisation, and `init_user` then makes the first process of the first 68 free pages, whatever the drivers have
written to the kernel's data in between. The kernel's own directory keeps its layout. -/
theorem boot_first_process (h : BootOk k m entrypgdir) {u : UserSymbols} (hcode : LinkedCode k u)
    {fuel₀ : Nat} {mbiAddr : Word} {b₁ : BootState} (hparse : parseBootInfo fuel₀ k multiboot2BootloaderMagic
      mbiAddr (BootState.init m entrypgdir) = .ok b₁) :
    ∃ fuel b l, kernelMain fuel k multiboot2BootloaderMagic mbiAddr (BootState.init m entrypgdir) = .ok b ∧
      ∀ km, Driven k b.kmem km → ∀ s : UserInit, s.table = ProcTable.init km →
        ∃ pgdir frame s', initUser u (initKmappings b.memInfo.kdataStartAddr) s = .ok s' ∧
          FirstProcess u k.kernelDataStart ⟨km, [b.kpgdir], []⟩ l pgdir frame s' ∧
          ∀ va, translate s'.table.kmem.mem b.kpgdir va = kernelLayout k.kernelDataStart va := by
  obtain ⟨fuel, b, l, hmain, hkdata, -, hpool⟩ := kernelMain_userPool h hparse
  refine ⟨fuel, b, l, hmain, fun km hkm s hs => ?_⟩
  have hready := hpool.driven hkm
  obtain ⟨pgdir, frame, s', hinit, hfirst⟩ := initUser_ok h.aligned h.text h.kdata_lt hready.separate
    hready.enough (hcode.codeImage fun p hp => hready.behind p (Or.inl hp)) hs
  rw [← hkdata] at hinit
  refine ⟨pgdir, frame, s', hinit, hfirst, fun va => ?_⟩
  have hal := (hready.separate.dirOk b.kpgdir List.mem_cons_self).aligned
  exact ((hfirst.same b.kpgdir List.mem_cons_self).translate hal va).trans (hready.kernel va)

end Boot

/-- The kernel of 1 MiB, with 35 bytes of user code in its text. -/
theorem boot_first_process_small : ∃ fuel b l,
    kernelMain fuel smallKernel multiboot2BootloaderMagic 0x1000 (BootState.init entryMem 0x8010A000) = .ok b ∧
      ∃ pgdir frame s', initUser ⟨0x80101000, 0x80102000, 0x80105000, 35⟩
          (initKmappings b.memInfo.kdataStartAddr)
          ⟨initLock, ProcTable.init b.kmem, none, fun _ => 0, fun _ => []⟩ = .ok s' ∧
        FirstProcess ⟨0x80101000, 0x80102000, 0x80105000, 35⟩ 0x8010A000 ⟨b.kmem, [b.kpgdir], []⟩ l pgdir
          frame s' := by
  have hparse : parseBootInfo 1 smallKernel multiboot2BootloaderMagic 0x1000
      (BootState.init entryMem 0x8010A000) = .ok _ := parseBootInfo_noTags (by decide)
  have hcode : LinkedCode smallKernel ⟨0x80101000, 0x80102000, 0x80105000, 35⟩ :=
    ⟨by decide, by decide, by decide⟩
  obtain ⟨fuel, b, l, hmain, hall⟩ := boot_first_process bootOk_small hcode hparse
  obtain ⟨pgdir, frame, s', hinit, hfirst, -⟩ := hall b.kmem ⟨rfl, fun _ _ => rfl⟩
    ⟨initLock, ProcTable.init b.kmem, none, fun _ => 0, fun _ => []⟩ rfl
  exact ⟨fuel, b, l, hmain, pgdir, frame, s', hinit, hfirst⟩

/-! ## The launch -/

section Launch
variable {u : UserSymbols} {kdata pgdir frame : Addr} {st : VmState} {l : List Addr} {s : UserInit} {c d : X86}

/-- The CPU in `launch_first_proc` at its `switch_to` to the process: the pages that `init_user` took and left
have not been written since, and the scheduler saves itself elsewhere. -/
structure AtSwitch (l : List Addr) (s : UserInit) (c : X86) : Prop where
  cpl : X86.cpl c.cs = 0
  next : c.nextArg = (s.table.proc 0).ctx
  apart : ∀ x ∈ contextBytes c ∪ cell c.prevArg, pgRoundDown x ∉ l
  mem : ∀ x, pgRoundDown x ∈ l → c.mem x = s.table.kmem.mem x

/-- `fork_ret` has returned; it writes to the stack it is on and to the kernel's own data. -/
structure ForkReturned (l : List Addr) (kstack : Addr) (c d : X86) : Prop extends Returned c d where
  elsewhere : ∀ x, pgRoundDown x ∈ l → pgRoundDown x ≠ kstack → d.mem x = c.mem x

/-- In user mode, as the frame of `init_user` has it. -/
structure InUser (kdata : Addr) (pgdir frame : Addr) (code : Addr → Byte) (size : Word) (e : X86) : Prop where
  cpu : e = userFrame.resume e.mem
  user : UserSpace e.mem pgdir frame code size
  kernel : ∀ va, kernBase ≤ va → translate e.mem pgdir va = kernelLayout kdata va

theorem FirstProcess.kstack_mem (h : FirstProcess u kdata st l pgdir frame s) : (s.table.proc 0).kstack ∈ l :=
  List.mem_of_mem_head? h.kstack

/-- The words from the context to the end of the stack are in its page. -/
theorem FirstProcess.stackPage (h : FirstProcess u kdata st l pgdir frame s) {x : Addr}
    (hx : (x - (s.table.proc 0).ctx).toNat < 100) : pgRoundDown x = (s.table.proc 0).kstack := by
  obtain ⟨hpage, -⟩ := h.separate.frame _ (List.mem_cons_of_mem frame List.mem_cons_self)
  rw [pgRoundDown_eq_iff hpage]
  rw [h.ctx] at hx
  bv_omega

theorem FirstProcess.stack (h : FirstProcess u kdata st l pgdir frame s) :
    PageAligned (s.table.proc 0).kstack ∧ (s.table.proc 0).kstack ≠ 0 ∧ frame ≠ (s.table.proc 0).kstack ∧
      ¬Owns s.table.kmem.mem pgdir (s.table.proc 0).kstack := by
  obtain ⟨hpage, h0, -, hown⟩ := h.separate.frame _ (List.mem_cons_of_mem frame List.mem_cons_self)
  exact ⟨hpage, h0, fun he => (List.nodup_cons.mp h.separate.frames_nodup).1 (he ▸ List.mem_cons_self),
    hown pgdir List.mem_cons_self⟩

theorem FirstProcess.tf_eq (h : FirstProcess u kdata st l pgdir frame s) :
    (s.table.proc 0).tf = (s.table.proc 0).ctx + 24 := by
  rw [h.laidOut.tf, h.ctx]
  bv_omega

/-- The save of the scheduler leaves the pages of the process. -/
theorem AtSwitch.saved (h : AtSwitch l s c) {x : Addr} (hx : pgRoundDown x ∈ l) :
    c.switchTo.mem x = s.table.kmem.mem x := by
  have hout : x ∉ contextBytes c ∪ cell c.prevArg := fun hin => h.apart x hin hx
  rw [Set.mem_union, not_or] at hout
  exact (X86.switchTo_outside hout.1 hout.2).trans (h.mem x hx)

/-- `switch_to` enters `fork_ret`, with the address of `trap_ret` on the stack. -/
theorem FirstProcess.forks (h : FirstProcess u kdata st l pgdir frame s) (hc : AtSwitch l s c) :
    c.switchTo.eip = u.forkRet ∧ c.switchTo.esp = (s.table.proc 0).ctx + 20 ∧
      ∀ x, (x - (s.table.proc 0).ctx).toNat < 100 → c.switchTo.mem x = s.table.kmem.mem x := by
  have hstack : ∀ x, (x - (s.table.proc 0).ctx).toNat < 100 → c.switchTo.mem x = s.table.kmem.mem x :=
    fun x hx => hc.saved (h.stackPage hx ▸ h.kstack_mem)
  have hres := X86.switchTo_restores c
  rw [hc.next] at hres
  refine ⟨?_, hres.esp, hstack⟩
  rw [hres.eip, ← h.forkRet]
  exact load32_within _ _ hstack (by decide)

/-- `fork_ret` returns to `trap_ret`, at the frame. -/
theorem FirstProcess.traps (h : FirstProcess u kdata st l pgdir frame s) (hc : AtSwitch l s c)
    (hd : Returned c.switchTo d) :
    d.eip = u.trapRet ∧ d.esp = (s.table.proc 0).tf ∧ readFrame d.mem d.esp = userFrame := by
  obtain ⟨-, hesp, hstack⟩ := h.forks hc
  have hdesp : d.esp = (s.table.proc 0).tf := by
    rw [hd.esp, hesp, h.tf_eq]
    bv_omega
  refine ⟨?_, hdesp, ?_⟩
  · rw [hd.eip, hesp, ← h.trapRet]
    exact load32_within _ _ hstack (by decide)
  · rw [hdesp, ← h.tf]
    refine readFrame_congr fun x hx => (hd.frame x ?_).trans (hstack x ?_)
    · rwa [← hd.esp, hdesp]
    · have hx' : (x - (s.table.proc 0).tf).toNat < 76 := hx
      rw [h.tf_eq] at hx'
      bv_omega

/-- The address space has gone through the launch. -/
theorem FirstProcess.userSpace (h : FirstProcess u kdata st l pgdir frame s) (hc : AtSwitch l s c)
    (hd : ForkReturned l (s.table.proc 0).kstack c.switchTo d) :
    UserSpace d.mem pgdir frame (fun i => st.kmem.mem (u.userInitCode + i)) u.userInitCodeSize ∧
      ∀ va, kernBase ≤ va → translate d.mem pgdir va = kernelLayout kdata va := by
  obtain ⟨-, -, hne, hown⟩ := h.stack
  have hpage := (h.separate.frame frame List.mem_cons_self).1
  have hdirpage := (h.separate.dirOk pgdir List.mem_cons_self).aligned
  have hsame : ∀ x, pgRoundDown x ∈ l → pgRoundDown x ≠ (s.table.proc 0).kstack →
      d.mem x = s.table.kmem.mem x := fun x hx hx' => (hd.elsewhere x hx hx').trans (hc.saved hx)
  have hdir : SameDir s.table.kmem.mem d.mem pgdir := fun x hx =>
    hsame x (h.pages.2 _ hx) fun he => hown (he ▸ hx)
  refine ⟨h.user.static hdirpage hpage hdir fun x hx => hsame x ?_ ?_, fun va hva => ?_⟩
  · rw [hx]
    exact h.pages.1
  · rwa [hx]
  · rw [hdir.translate hdirpage, h.kernel va hva]

/-- **The launch of the first process.** `switch_uvm` accepts it; `switch_to` enters `fork_ret`, which returns to
`trap_ret`, and the `iret` leaves the CPU in user mode at address 0, on a stack that starts at the end of the page
of its code, in the address space that `init_user` made. The kernel stack is empty then, so the next entry from
user mode starts at its end. -/
theorem first_process_runs (h : FirstProcess u kdata st l pgdir frame s) (hc : AtSwitch l s c)
    (hd : ForkReturned l (s.table.proc 0).kstack c.switchTo d) :
    ProcStack.switchUvm (some (s.table.proc 0)) = .ok (⟨d.atIret.esp + 20, kerDs⟩, v2p pgdir) ∧
      c.switchTo.eip = u.forkRet ∧ d.eip = u.trapRet ∧ d.esp = (s.table.proc 0).tf ∧
      InUser kdata pgdir frame (fun i => st.kmem.mem (u.userInitCode + i)) u.userInitCodeSize d.trapRet := by
  obtain ⟨-, h0, -, -⟩ := h.stack
  obtain ⟨hfork, -, -⟩ := h.forks hc
  obtain ⟨htrap, hesp, hframe⟩ := h.traps hc hd.toReturned
  obtain ⟨huser, hkernel⟩ := h.userSpace hc hd
  have hresume : d.trapRet = userFrame.resume d.mem := by
    have hcs : d.cs = c.cs := hd.cs
    rw [← hframe]
    refine X86.trapRet_resume ?_
    rw [hframe, hcs, hc.cpl]
    decide
  have hmem : d.trapRet.mem = d.mem := by
    rw [hresume]
    rfl
  have htop : d.atIret.esp + 20 = (s.table.proc 0).kstack + BitVec.ofNat 32 kstackSize := by
    show d.esp + 32 + 16 + 8 + 20 = (s.table.proc 0).kstack + 4096
    rw [hesp, h.laidOut.tf]
    bv_omega
  refine ⟨?_, hfork, htrap, hesp, ⟨hmem ▸ hresume, hmem ▸ huser, hmem ▸ hkernel⟩⟩
  rw [htop, ProcStack.switchUvm, if_neg h0, if_neg (h.dir.1 ▸ h.dir.2), h.dir.1]

/-- In the machine of the scheduler `init_user` is the steps `alloc` and `runnable`. -/
theorem FirstProcess.machine {K : Type} [DecidableEq K] (h : FirstProcess u kdata st l pgdir frame s)
    {t : Kernel K} (ht : Boot t) (hnext : t.nextPid = 1) :
    ∃ t', Run KernelStep t [.alloc (s.table.proc 0).kstack, .runnable 0 pgdir] t' ∧
      t'.AtBoot ∧ t'.nextPid = s.table.nextPid ∧ (t'.proc 0).pid = (s.table.proc 0).pid ∧
      (t'.proc 0).state = (s.table.proc 0).state ∧ (t'.proc 0).kstack = (s.table.proc 0).kstack ∧
      (t'.proc 0).pgdir = (s.table.proc 0).pgdir ∧ ∀ j, j ≠ 0 → t'.proc j = t.proc j := by
  obtain ⟨-, h0, -, -⟩ := h.stack
  have hboot : t.AtBoot := ⟨ht.irq, ht.running, ht.schedPc⟩
  have hfind : ((List.finRange maxProc).find? fun i => (t.proc i).state = .unused) = some 0 := by
    simp only [ht.unused]
    rfl
  have hmax : t.nextPid ≠ intMax := by
    rw [hnext]
    decide
  have hdir : pgdir ≠ 0 := h.dir.2
  have halloc : allocProcess (s.table.proc 0).kstack t = configProcKstack (s.table.proc 0).kstack 0 t := by
    rw [allocProcess, hfind]
  rw [configProcKstack, if_neg hmax, if_neg h0] at halloc
  have hexec : (Act.alloc (s.table.proc 0).kstack).exec t = .ok _ := congrArg (Except.map Prod.snd) halloc
  have hstep : KernelStep t (.alloc (s.table.proc 0).kstack) _ := ⟨Or.inl hboot, hexec⟩
  generalize ht₁ : Kernel.goto (K := K) _ 0 .forkRet = t₁ at hstep
  have hproc : t₁.proc = Function.update t.proc 0
      { t.proc 0 with state := .embryo, pid := t.nextPid, kstack := (s.table.proc 0).kstack } := ht₁ ▸ rfl
  have hboot₁ : t₁.AtBoot := ht₁ ▸ hboot
  have hnext₁ : t₁.nextPid = t.nextPid + 1 := ht₁ ▸ rfl
  have hembryo : (t₁.proc 0).state = .embryo := by
    rw [hproc, Function.update_self]
  have hrun : makeRunnable 0 pgdir t₁ = .ok _ := if_neg hdir
  refine ⟨_, (Run.single hstep).snoc ⟨⟨Or.inl hboot₁, hembryo⟩, hrun⟩, hboot₁, ?_, ?_⟩
  · rw [h.pid.2]
    exact hnext₁.trans (congrArg (· + 1) hnext)
  · simp only [Kernel.setState, Function.update_self, hproc, h.pid.1, h.state, h.dir.1, hnext]
    refine ⟨trivial, trivial, trivial, trivial, fun j hj => ?_⟩
    rw [Function.update_of_ne hj, Function.update_of_ne hj, Function.update_of_ne hj]

end Launch

/-- A page below the free ones. -/
theorem not_mem_somePages {n : Nat} (hn : n ≤ 1024) {p : Addr} (hp : p.toNat < 0x80200000) :
    p ∉ somePages n := by
  intro hmem
  obtain ⟨j, hj, rfl⟩ := List.mem_map.mp hmem
  rw [List.mem_reverse, List.mem_range] at hj
  rw [BitVec.toNat_ofNat] at hp
  omega

/-- The scheduler's stack ends at `0x80105000`; `fork_ret` does nothing. -/
theorem first_process_runs_text : ∃ (s : UserInit) (pgdir frame : Addr) (c d : X86),
    initUser ⟨0x80101000, 0x80102000, 0x80105000, 35⟩ (initKmappings 0x80110000)
      ⟨initLock, ProcTable.init (someFree 70), none, fun _ => 0, fun _ => []⟩ = .ok s ∧
    c.switchTo.eip = 0x80101000 ∧ d.eip = 0x80102000 ∧
    InUser 0x80110000 pgdir frame (fun i => (someFree 70).mem (0x80105000 + i)) 35 d.trapRet := by
  have hsep : Separate ⟨someFree 70, [], []⟩ (somePages 70) :=
    ⟨someFree_ok 70 (by decide), fun _ hd => absurd hd List.not_mem_nil, List.nodup_nil,
      fun _ hd => absurd hd List.not_mem_nil, List.nodup_nil, fun _ hf => absurd hf List.not_mem_nil⟩
  obtain ⟨pgdir, frame, s, hinit, hfirst⟩ := initUser_ok (k := ⟨0x80101000, 0x80102000, 0x80105000, 35⟩)
    (show PageAligned 0x80110000 by decide) (by decide) (by decide) hsep (by decide) (codeImage_text (by decide))
    (s := ⟨initLock, ProcTable.init (someFree 70), none, fun _ => 0, fun _ => []⟩) rfl
  let c : X86 := { firstCpu with
    esp := 0x80105000
    mem := store32 (store32 s.table.kmem.mem 0x80105004 0x80106000) 0x80105008 (s.table.proc 0).ctx }
  let d : X86 := { c.switchTo with eip := load32 c.switchTo.mem c.switchTo.esp, esp := c.switchTo.esp + 4 }
  have hlow : ∀ x : Addr, x.toNat < 0x80200000 → pgRoundDown x ∉ somePages 70 := fun x hx =>
    not_mem_somePages (by decide) (by rw [pgRoundDown_toNat]; omega)
  have hprev : c.prevArg = 0x80106000 := by
    show load32 (store32 (store32 _ 0x80105004 0x80106000) 0x80105008 _) 0x80105004 = _
    rw [load32_store32_ne _ _ _ _ (by decide) (by decide), load32_store32]
  have hat : AtSwitch (somePages 70) s c := by
    have hcs : X86.cpl firstCpu.cs = 0 := by decide
    refine ⟨hcs, load32_store32 .., fun x hx => hlow x ?_, fun x hx => ?_⟩
    · rw [hprev] at hx
      rcases hx with hctx | hcell
      · have hctx' : (x - (0x80105000 - 16)).toNat < 20 := hctx
        bv_omega
      · have hcell' : (x - 0x80106000).toNat < 4 := hcell
        bv_omega
    · have hhigh : ¬x.toNat < 0x80200000 := fun hlt => hlow x hlt hx
      show store32 (store32 _ 0x80105004 _) 0x80105008 _ x = _
      rw [store32_outside _ _ _ _ (by bv_omega), store32_outside _ _ _ _ (by bv_omega)]
  have hret : ForkReturned (somePages 70) (s.table.proc 0).kstack c.switchTo d :=
    ⟨⟨rfl, rfl, rfl, fun _ _ => rfl⟩, fun _ _ _ => rfl⟩
  obtain ⟨-, hfork, htrap, -, huser⟩ := first_process_runs hfirst hat hret
  exact ⟨s, pgdir, frame, c, d, hinit, hfork, htrap, huser⟩

end TuixOS
