import TuixOS.AllocProcess
import TuixOS.BootPool
import TuixOS.StrCopy
import TuixOS.Spinlock
import TuixOS.Syscall

/-!
# The first process: `init_user` of `kernel/sys/process.c`

`init_user` takes 68 pages: a kernel stack, a directory with 64 tables, the page of the code and the table for it.
They are the first pages of the free list. It writes to these pages only, so every directory there is stays as
it is, and the allocator has the rest of the list (`initUser_ok`).
-/

namespace TuixOS

open Lib

/-- `USR_CS` -/
def usrCs : Half := 0x18
/-- `USR_DS` -/
def usrDs : Half := 0x20
/-- `USR_DPL` -/
def usrDpl : Half := 3
/-- `FL_IF` -/
def flIF : Word := 0x200

/-- `init_lock`, but for the name. -/
def initLock : Spinlock := ⟨0, none⟩

/-- What `init_user` works on: `ptable`, `next_pid`, the allocator, `proc_first`, and the fields of the processes
that nothing else reads. -/
structure UserInit where
  lock : Spinlock
  table : ProcTable
  procFirst : Option Slot
  size : Slot → Word
  name : Slot → List Byte

/-- The code that `init_user` refers to, and `user_init_code_size`. -/
structure UserSymbols where
  forkRet : Word
  trapRet : Word
  userInitCode : Addr
  userInitCodeSize : Word

/-- "initcode" -/
def initcodeName : List Byte := [0x69, 0x6E, 0x69, 0x74, 0x63, 0x6F, 0x64, 0x65]

/-- The frame at `p->tf`. -/
def fillTf (tf : Addr) (m : Mem) : Mem :=
  let m := (memset tf 0 (BitVec.ofNat 32 trapFrameSize) m).2
  let m := store16 m (tf + 60) (usrCs ||| usrDpl)
  let m := store16 m (tf + 44) (usrDs ||| usrDpl)
  let m := store16 m (tf + 40) (load16 m (tf + 44))
  let m := store16 m (tf + 72) (load16 m (tf + 44))
  let m := store32 m (tf + 64) flIF
  let m := store32 m (tf + 68) pgSize
  store32 m (tf + 56) 0

namespace ProcTable

def set (i : Slot) (p : ProcStack) (k : Kmem) (s : ProcTable) : ProcTable :=
  { s with proc := Function.update s.proc i p, kmem := k }

@[simp] theorem set_proc (i : Slot) (p : ProcStack) (k : Kmem) (s : ProcTable) : (s.set i p k).proc i = p :=
  Function.update_self ..

theorem set_proc_of_ne {i j : Slot} (hj : j ≠ i) (p : ProcStack) (k : Kmem) (s : ProcTable) :
    (s.set i p k).proc j = s.proc j :=
  Function.update_of_ne hj ..

theorem set_set (i : Slot) (p q : ProcStack) (k k' : Kmem) (s : ProcTable) :
    (s.set i p k).set i q k' = s.set i q k' := by
  simp only [set, Function.update_idem]

@[simp] theorem set_kmem (i : Slot) (p : ProcStack) (k : Kmem) (s : ProcTable) : (s.set i p k).kmem = k := rfl

@[simp] theorem set_nextPid (i : Slot) (p : ProcStack) (k : Kmem) (s : ProcTable) :
    (s.set i p k).nextPid = s.nextPid := rfl

end ProcTable

def initUser (k : UserSymbols) (kMaps : List Kmap) (s : UserInit) : Res UserInit := do
  let s := { s with lock := initLock }
  let (p, table) ← s.table.allocProcess k.forkRet k.trapRet
  let s := { s with table := table, procFirst := p }
  let (pgdir, kmem) ← setupKvm kMaps s.table.kmem
  -- `p->pgdir` of a null `p`
  let some i := p | throw .fault
  let s := { s with table := s.table.set i { s.table.proc i with pgdir := pgdir } kmem }
  if pgdir = 0 then throw (.panic "userinit: out of memory?")
  let kmem ← initUvm pgdir k.userInitCode k.userInitCodeSize s.table.kmem
  let s := { s with size := Function.update s.size i pgSize }
  let kmem := { kmem with mem := fillTf (s.table.proc i).tf kmem.mem }
  -- `strncpy(p->name, "initcode", sizeof(p->name))`
  let s := { s with name := Function.update s.name i (View.padded 16 initcodeName) }
  return { s with table := s.table.set i { s.table.proc i with state := .runnable } kmem }

/-! ## The frame -/

/-- What `trap_ret` pops for a process that has not run yet. -/
def userFrame : TrapFrame where
  edi := 0
  esi := 0
  ebp := 0
  esp := 0
  ebx := 0
  edx := 0
  ecx := 0
  eax := 0
  gs := 0
  fs := 0
  es := 0x23
  ds := 0x23
  intNo := 0
  errCode := 0
  eip := 0
  cs := 0x1b
  eflags := 0x200
  userEsp := 0x1000
  ss := 0x23

section Frame
variable {tf kstack : Addr}

/-- The words of the frame from `edi` on. -/
def userWords : List Word :=
  [0, 0, 0, 0, 0, 0, 0, 0, 0, 0, 0x23, 0x23, 0, 0, 0, 0x1b, 0x200, 0x1000, 0x23]

theorem fillTf_words (h0 : tf ≠ 0) (m : Mem) : WordsAt (fillTf tf m) tf userWords := by
  have hclear : WordsAt (memset tf 0 (BitVec.ofNat 32 trapFrameSize) m).2 tf (List.replicate 19 0) := by
    refine WordsAt.replicate_zero (by decide) fun x hx => ?_
    have hx' : (x - tf).toNat < (BitVec.ofNat 32 trapFrameSize).toNat := hx
    rw [memset_apply h0, if_pos hx']
    rfl
  have hcs := hclear.set16 (by decide) (k := 15) rfl (usrCs ||| usrDpl)
  have hds := hcs.set16 (by decide) (k := 11) rfl (usrDs ||| usrDpl)
  have hes := hds.copy16 (by decide) (j := 11) (k := 10) rfl rfl
  have hss := hes.copy16 (by decide) (j := 11) (k := 18) rfl rfl
  have hflags := hss.set (by decide) (k := 16) (by decide) flIF
  have hesp := hflags.set (by decide) (k := 17) (by decide) pgSize
  exact hesp.set (by decide) (k := 14) (by decide) 0

theorem readFrame_words {m : Mem} (h : WordsAt m tf userWords) : readFrame m tf = userFrame := by
  simp only [readFrame, userFrame, TrapFrame.mk.injEq]
  exact ⟨h.1, h.get (k := 1) rfl, h.get (k := 2) rfl, h.get (k := 3) rfl, h.get (k := 4) rfl,
    h.get (k := 5) rfl, h.get (k := 6) rfl, h.get (k := 7) rfl, h.get16 (k := 8) rfl, h.get16 (k := 9) rfl,
    h.get16 (k := 10) rfl, h.get16 (k := 11) rfl, h.get (k := 12) rfl, h.get (k := 13) rfl,
    h.get (k := 14) rfl, h.get16 (k := 15) rfl, h.get (k := 16) rfl, h.get (k := 17) rfl,
    h.get16 (k := 18) rfl⟩

theorem fillTf_outside (h0 : tf ≠ 0) (m : Mem) {x : Addr} (hx : trapFrameSize ≤ (x - tf).toNat) :
    fillTf tf m x = m x := by
  have hx' : 76 ≤ (x - tf).toNat := hx
  simp only [fillTf]
  rw [store32_outside _ _ _ _ (by bv_omega), store32_outside _ _ _ _ (by bv_omega),
    store32_outside _ _ _ _ (by bv_omega), store16_outside _ _ _ _ (by bv_omega),
    store16_outside _ _ _ _ (by bv_omega), store16_outside _ _ _ _ (by bv_omega),
    store16_outside _ _ _ _ (by bv_omega), memset_apply h0, if_neg]
  exact Nat.not_lt.mpr hx

theorem tf_ne_zero (hpage : PageAligned kstack) : kstack + 4020 ≠ 0 := by
  unfold PageAligned at hpage
  bv_omega

theorem fillTf_below (hpage : PageAligned kstack) (m : Mem) {x : Addr} (hx : (x - kstack).toNat < 4020) :
    fillTf (kstack + 4020) m x = m x := by
  refine fillTf_outside (tf_ne_zero hpage) m ?_
  show 76 ≤ (x - (kstack + 4020)).toNat
  bv_omega

/-- The frame is in the page of the stack. -/
theorem fillTf_page (hpage : PageAligned kstack) (m : Mem) : SameOutside kstack m (fillTf (kstack + 4020) m) := by
  intro x hx
  have hx' : ¬(x - kstack).toNat < 4096 := fun hin => hx ((pgRoundDown_eq_iff hpage).mpr hin)
  refine fillTf_outside (tf_ne_zero hpage) m ?_
  show 76 ≤ (x - (kstack + 4020)).toNat
  bv_omega

end Frame

/-! ## The directory -/

section Directory
variable {kdata pgdir frame init p : Addr} {size : Word} {s s' : Kmem} {l rest : List Addr}

/-- Writes to a page that is none of the directory's. -/
theorem UserDir.write {m : Mem} (h : UserDir kdata pgdir frame l s) (hm : SameOutside p s.mem m)
    (hown : ¬Owns s.mem pgdir p) (hnot : p ∉ l) : UserDir kdata pgdir frame l { s with mem := m } := by
  obtain ⟨hpde, hpte⟩ := h.dir.pteOf_outside hm (fun he => hown (Or.inl he))
    fun va hp he => hown (Or.inr ⟨va, hp, he⟩)
  refine ⟨h.free.write hm hnot, h.dir.congr hpde, fun va hp => ?_, fun va => ?_, fun va hp => ?_⟩
  · rw [tabOf_congr (hpde va), hpde va]
    exact h.pde va ((present_congr (hpde va)).mp hp)
  · exact (hpte va).trans (h.pte va)
  · rw [tabOf_congr (hpde va)]
    exact h.not_table va ((present_congr (hpde va)).mp hp)

theorem UserDir.translate (hal : PageAligned kdata) (hlo : kernLink < kdata) (hhi : kdata < p2v physTop)
    (h : UserDir kdata pgdir frame l s) (hpage : PageAligned frame) (va : Addr) :
    translate s.mem pgdir va =
      if va.toNat < 4096 then some ⟨v2p frame + va, true, true⟩ else kernelLayout kdata va := by
  rw [translate_eq (h.pde va), h.pte]
  split_ifs with hva
  · rw [pteTranslation_mappedPte (by decide) hpage.v2p (by decide),
      show va - 0 = va from BitVec.sub_zero va]
    rfl
  · exact kernelPte_translation hal hlo hhi va

/-- The address space of such a directory. -/
theorem UserDir.userSpace {code : Addr → Byte} (hal : PageAligned kdata) (hlo : kernLink < kdata)
    (hhi : kdata < p2v physTop) (h : UserDir kdata pgdir frame l s) (hpage : PageAligned frame)
    (hne : frame ≠ pgdir) (hbytes : ∀ i : Addr, i.toNat < 4096 →
      s.mem (frame + i) = if i.toNat < size.toNat then code i else 0) :
    UserSpace s.mem pgdir frame code size where
  reachable va := by
    rw [userReachable_iff (h.pde va), h.pte]
    split_ifs with hva
    · have huser : mappedPte 0 (v2p frame) (pteW ||| pteU) va &&& pteU ≠ 0 := by
        rw [mappedPte_flag (by decide) hpage.v2p (by decide) (by decide)]
        decide
      exact iff_of_true ⟨mappedPte_present _ (by decide) hpage.v2p va, huser⟩ hva
    · rw [kernelPte_user hal]
      exact iff_of_false (fun hreach => hreach.2 rfl) hva
  page va hva := by rw [h.translate hal hlo hhi hpage, if_pos hva]
  not_dir := hne
  not_table := h.not_table
  alone va hlow hhigh := by
    have hhigh' : va.toNat < 0x80000000 := hhigh
    rw [h.translate hal hlo hhi hpage, if_neg (by omega), ← kernelPte_translation hal hlo hhi,
      kernelPte_low hlo hhi hhigh']
    rfl
  contents := hbytes

/-- `init_uvm` writes to the directory, to its tables and to free pages, and no other page becomes a table. -/
theorem initUvm_frame (hl : FreeList s (frame :: rest)) (hd : DirOk s.mem pgdir (frame :: rest))
    (hrun : initUvm pgdir init size s = .ok s') :
    (∀ x, pgRoundDown x ∉ frame :: rest → ¬Owns s.mem pgdir (pgRoundDown x) → s'.mem x = s.mem x) ∧
      ∀ p, Owns s'.mem pgdir p → Owns s.mem pgdir p ∨ p ∈ rest := by
  have hpage := hl.aligned frame List.mem_cons_self
  unfold initUvm at hrun
  split_ifs at hrun with hsize
  simp only [hl.kalloc_cons] at hrun
  obtain ⟨⟨r, s₁⟩, hmap, hret⟩ := bind_eq_ok.mp hrun
  cases hret
  have hcleared := cleared_memset hl hd
  obtain ⟨l₁, hext⟩ := mapPages_extends hcleared.free hcleared.dir hmap
  have hcopy := sameOutside_memmove hpage init (BitVec.not_lt.mp hsize) s₁.mem
  have hclear : SameDir s.mem (memset frame 0 pgSize s.mem).2 pgdir :=
    hcleared.outside.sameDir fun hown => hd.owns_not_free hown List.mem_cons_self
  have howns := hclear.owns_iff hd.aligned
  have hnot : ¬Owns s₁.mem pgdir frame := by
    rintro (he | ⟨va, hva, he⟩)
    · exact hcleared.ne he
    · exact hcleared.tab_ne_frame hext va hva he
  refine ⟨fun x hx hown => ?_, fun p hp => ?_⟩
  · have hne : pgRoundDown x ≠ frame := fun he => hx (he ▸ List.mem_cons_self)
    refine (hcopy x hne).trans ((hext.frame x (fun he => hown (Or.inl he)) ?_ ?_).trans
      (hcleared.outside x hne))
    · exact fun hmem => hx (List.mem_cons_of_mem frame hmem)
    · exact fun va hva he => hown ((howns _).mp (Or.inr ⟨va, hva, he⟩))
  · have hold := ((hcopy.sameDir hnot).owns_iff hd.aligned p).mp hp
    exact (hext.owns hold).imp_left (howns p).mp

end Directory

/-! ## `init_user` -/

theorem FreeList.head_eq {s s' : Kmem} {l : List Addr} (h : FreeList s l) (h' : FreeList s' l) :
    s'.freelist = s.freelist := by
  cases l with
  | nil =>
    have hnil : s.freelist = 0 := h.chain
    have hnil' : s'.freelist = 0 := h'.chain
    rw [hnil, hnil']
  | cons p l => exact h'.chain.1.trans h.chain.1.symm

/-- The first free page has been taken and written. -/
theorem Separate.takeWritten {st : VmState} {p : Addr} {l : List Addr} {k : Kmem}
    (h : Separate st (p :: l)) (hfree : FreeList k l) (hm : SameOutside p st.kmem.mem k.mem) :
    Separate ⟨k, st.dirs, p :: st.frames⟩ l ∧ ∀ d ∈ st.dirs, SameDir st.kmem.mem k.mem d := by
  have htake := h.take
  have hhead : k.freelist = runNext st.kmem.mem p := htake.free.head_eq hfree
  obtain ⟨hsep, hsame⟩ := htake.write List.mem_cons_self hm
  rw [← hhead] at hsep
  exact ⟨hsep, hsame⟩

/-! ### `alloc_process` -/

theorem ProcTable.allocProcess_laidOut {forkRetAddr trapRetAddr : Word} {s s' : ProcTable} {i : Slot}
    (h : s.allocProcess forkRetAddr trapRetAddr = .ok (some i, s')) : (s'.proc i).LaidOut := by
  rw [ProcTable.allocProcess] at h
  split at h
  · next j hfind =>
    obtain ⟨⟨b, r⟩, hconf, hret⟩ := bind_eq_ok.mp h
    cases b with
    | false => cases hret
    | true =>
      cases hret
      have hself : Function.update s.proc i r.proc i = r.proc := Function.update_self ..
      show (Function.update s.proc i r.proc i).LaidOut
      rw [hself]
      exact ⟨forkRetAddr, trapRetAddr, _, r, hconf, rfl, rfl⟩
  · cases h

/-- What the first `alloc_process` of all leaves, where `kstack` is the first free page. -/
structure AllocFirst (k : UserSymbols) (st : VmState) (kstack : Addr) (l : List Addr) (t : ProcTable) :
    Prop where
  stack : (t.proc 0).kstack = kstack
  aligned : PageAligned kstack
  pid : (t.proc 0).pid = 1 ∧ t.nextPid = 2
  others : ∀ j, j ≠ 0 → t.proc j = (ProcTable.init st.kmem).proc j
  laidOut : (t.proc 0).LaidOut
  ctx : (t.proc 0).ctx = kstack + 3996
  forkRet : load32 t.kmem.mem (kstack + 4012) = k.forkRet
  trapRet : load32 t.kmem.mem (kstack + 4016) = k.trapRet
  outside : SameOutside kstack st.kmem.mem t.kmem.mem
  separate : Separate ⟨t.kmem, st.dirs, kstack :: st.frames⟩ l
  same : ∀ d ∈ st.dirs, SameDir st.kmem.mem t.kmem.mem d

theorem allocFirst {st : VmState} {kstack : Addr} {l : List Addr} (k : UserSymbols)
    (h : Separate st (kstack :: l)) :
    ∃ t, (ProcTable.init st.kmem).allocProcess k.forkRet k.trapRet = .ok (some 0, t) ∧
      AllocFirst k st kstack l t := by
  have hpage : ∃ t, (ProcTable.init st.kmem).allocProcess k.forkRet k.trapRet = .ok (some 0, t) ∧ _ :=
    (ProcTable.tableInv_init h.free).allocPage (show (1 : Int) ≠ intMax by decide) h.free (i := 0) rfl
  obtain ⟨t, hrun, hinv, hnext, hall⟩ := hpage
  obtain ⟨l', htaken, hfree, -⟩ := hall.taken
  obtain ⟨hk, rfl⟩ := List.cons.inj (h.free.unique htaken)
  have hlaid := ProcTable.allocProcess_laidOut hrun
  have hnext' : t.nextPid = 2 := hnext
  have hlive : t.Live 0 := by
    rw [ProcTable.Live, hall.embryo]
    decide
  have hpid := hinv.pid 0 hlive
  have htf := hlaid.tf
  have hctx : (t.proc 0).ctx = kstack + 3996 := by
    rw [hall.ctx, htf, ← hk]
    unfold contextSize
    bv_omega
  have hout : SameOutside kstack st.kmem.mem t.kmem.mem := fun x hx => hall.frame x (hk ▸ hx)
  obtain ⟨hsep, hsame⟩ := h.takeWritten hfree hout
  refine ⟨t, hrun, ⟨hk.symm, h.free.aligned kstack List.mem_cons_self, ⟨by omega, hnext'⟩, hall.others, hlaid,
    hctx, ?_, ?_, hout, hsep, hsame⟩⟩
  · rw [← hall.eip, hctx]
    exact congrArg _ (by bv_omega)
  · rw [← hall.trapRet, htf, ← hk]
    exact congrArg _ (by bv_omega)

/-- The two words that the launch returns through are below the frame. -/
theorem AllocFirst.words {k : UserSymbols} {st : VmState} {kstack : Addr} {l : List Addr} {t : ProcTable}
    (h : AllocFirst k st kstack l t) {m : Mem} (hm : ∀ x, pgRoundDown x = kstack → m x = t.kmem.mem x) :
    load32 (fillTf (kstack + 4020) m) (kstack + 4012) = k.forkRet ∧
      load32 (fillTf (kstack + 4020) m) (kstack + 4016) = k.trapRet := by
  have hword : ∀ a : Addr, (a - kstack).toNat + 4 ≤ 4020 →
      load32 (fillTf (kstack + 4020) m) a = load32 t.kmem.mem a := by
    intro a ha
    refine load32_of_cell fun x hx => ?_
    have hx' : (x - a).toNat < 4 := hx
    have hbelow : (x - kstack).toNat < 4020 := by bv_omega
    rw [fillTf_below h.aligned m hbelow]
    refine hm x ((pgRoundDown_eq_iff h.aligned).mpr (Nat.lt_trans hbelow (by decide)))
  refine ⟨(hword _ ?_).trans h.forkRet, (hword _ ?_).trans h.trapRet⟩
  all_goals bv_omega

/-! ### `setup_kvm` and `init_uvm` -/

/-- A new address space, of the pages `l`. -/
structure NewSpace (kdata : Addr) (st : VmState) (l : List Addr) (code : Addr → Byte) (size : Word)
    (pgdir frame : Addr) (s : Kmem) : Prop where
  ne_zero : pgdir ≠ 0
  aligned : PageAligned frame
  ne : frame ≠ pgdir
  dir : UserDir kdata pgdir frame (l.drop 67) s
  bytes : ∀ i : Addr, i.toNat < 4096 → s.mem (frame + i) = if i.toNat < size.toNat then code i else 0
  separate : Separate ⟨s, pgdir :: st.dirs, frame :: st.frames⟩ (l.drop 67)
  same : ∀ d ∈ st.dirs, SameDir st.kmem.mem s.mem d
  pages : frame ∈ l ∧ ∀ p, Owns s.mem pgdir p → p ∈ l

/-- Writes to an older frame leave it as it is. -/
theorem NewSpace.write {kdata pgdir frame p : Addr} {st : VmState} {l : List Addr} {code : Addr → Byte}
    {size : Word} {s : Kmem} {m : Mem} (h : NewSpace kdata st l code size pgdir frame s) (hst : Separate st l)
    (hp : p ∈ st.frames) (hm : SameOutside p s.mem m) :
    NewSpace kdata st l code size pgdir frame { s with mem := m } := by
  have hfree : p ∉ l := (hst.frame p hp).2.2.1
  have hown : ¬Owns s.mem pgdir p := fun hown => hfree (h.pages.2 p hown)
  obtain ⟨hsep, hsame⟩ := h.separate.write (List.mem_cons_of_mem frame hp) hm
  refine ⟨h.ne_zero, h.aligned, h.ne, h.dir.write hm hown fun hmem => hfree (List.drop_subset 67 l hmem),
    fun i hi => ?_, hsep, fun d hd => ?_, h.pages.1, fun q hq => h.pages.2 q ?_⟩
  · have hin : pgRoundDown (frame + i) = frame := by
      rw [pgRoundDown_eq_iff h.aligned, BitVec.add_comm, BitVec.add_sub_cancel]
      exact hi
    rw [← h.bytes i hi]
    refine hm _ ?_
    rw [hin]
    rintro rfl
    exact hfree h.pages.1
  · exact (h.same d hd).trans (hsame d (List.mem_cons_of_mem pgdir hd)) (hst.dirOk d hd).aligned
  · exact ((hsame pgdir List.mem_cons_self).owns_iff h.dir.dir.aligned q).mp hq

theorem setupKvm_kalloc {kdata pgdir : Addr} (hal : PageAligned kdata) (hlo : kernLink < kdata)
    (hhi : kdata < p2v physTop) {s s₁ : Kmem} {l : List Addr} (hl : FreeList s l) (hlen : 66 ≤ l.length)
    (hrun : setupKvm (initKmappings kdata) s = .ok (pgdir, s₁)) : (kalloc s₁).1 ≠ 0 := by
  obtain ⟨pgdir', s', hrun', hk⟩ := setupKvm_ok hal hlo hhi hl (by omega)
  rw [hrun] at hrun'
  cases hrun'
  intro hnull
  have hnil := congrArg List.length (hk.free.kalloc_zero.mp hnull)
  rw [List.length_drop, List.length_nil] at hnil
  omega

theorem newSpace {kdata init : Addr} {size : Word} {st : VmState} {l : List Addr} (hal : PageAligned kdata)
    (hlo : kernLink < kdata) (hhi : kdata < p2v physTop) (h : Separate st l) (hlen : 67 ≤ l.length)
    (himg : CodeImage init size l) :
    ∃ pgdir frame s₁ s₂, setupKvm (initKmappings kdata) st.kmem = .ok (pgdir, s₁) ∧
      initUvm pgdir init size s₁ = .ok s₂ ∧
      NewSpace kdata st l (fun i => st.kmem.mem (init + i)) size pgdir frame s₂ ∧
      ∀ x, pgRoundDown x ∉ l → s₂.mem x = st.kmem.mem x := by
  obtain ⟨pgdir, s₁, hsetup, hk⟩ := setupKvm_ok hal hlo hhi h.free (by omega)
  obtain ⟨frame, hframe⟩ : ∃ frame, l.drop 65 = frame :: l.drop 66 :=
    ⟨l.get ⟨65, by omega⟩, List.drop_eq_getElem_cons (by omega)⟩
  obtain ⟨tab, htab⟩ : ∃ tab, l.drop 66 = tab :: l.drop 67 :=
    ⟨l.get ⟨66, by omega⟩, List.drop_eq_getElem_cons (by omega)⟩
  obtain ⟨s₂, hinit, hdir, hbytes⟩ := initUvm_ok hlo hhi hk (htab ▸ hframe) himg
  have h0 : pgdir ≠ 0 := h.free.ne_zero hk.page
  have hfree := hk.free
  have hdirOk := hk.dir
  rw [hframe] at hfree hdirOk
  have hsub : frame :: l.drop 66 ⊆ l := hframe ▸ List.drop_subset 65 l
  obtain ⟨hout, howns⟩ := initUvm_frame hfree hdirOk hinit
  -- the list that is left is known, so the joint invariant speaks of it
  obtain ⟨⟨l₁, hsep₁⟩, hsame₁⟩ := h.setupKvm hsetup h0
  obtain rfl := hsep₁.free.unique hfree
  have hkalloc : (kalloc s₁).1 = frame := congrArg Prod.fst hfree.kalloc_cons
  have hnull : (kalloc s₁).1 ≠ 0 := by
    rw [hkalloc]
    exact hfree.ne_zero List.mem_cons_self
  obtain ⟨⟨l₂, hsep₂⟩, hsame₂⟩ := hsep₁.initUvm List.mem_cons_self hnull hinit
  obtain rfl := hsep₂.free.unique hdir.free
  rw [hkalloc] at hsep₂
  refine ⟨pgdir, frame, s₁, s₂, hsetup, hinit, ⟨h0, hfree.aligned frame List.mem_cons_self, ?_, hdir, hbytes,
    hsep₂, fun d hd => ?_, hsub List.mem_cons_self, fun p hp => ?_⟩, fun x hx => ?_⟩
  · rintro rfl
    exact hdirOk.not_free List.mem_cons_self
  · refine (hsame₁ d hd (Option.some_ne_none d).symm).trans (hsame₂ d (List.mem_cons_of_mem pgdir hd) fun he => ?_)
      (h.dirOk d hd).aligned
    obtain rfl := Option.some.inj he
    exact (List.nodup_cons.mp hsep₁.dirs_nodup).1 hd
  · rcases howns p hp with hold | hmem
    · exact hk.owns_mem hold
    · exact hsub (List.mem_cons_of_mem frame hmem)
  · exact (hout x (fun hmem => hx (hsub hmem)) fun hown => hx (hk.owns_mem hown)).trans (hk.frame x hx)

/-! ### The whole -/

/-- The process that `init_user` makes in the slot 0, of the pages `l`: its stack is the first of them. -/
structure FirstProcess (k : UserSymbols) (kdata : Addr) (st : VmState) (l : List Addr)
    (pgdir frame : Addr) (s : UserInit) : Prop where
  slot : s.procFirst = some 0
  lock : s.lock = initLock
  state : (s.table.proc 0).state = .runnable
  pid : (s.table.proc 0).pid = 1 ∧ s.table.nextPid = 2
  others : ∀ j, j ≠ 0 → s.table.proc j = (ProcTable.init st.kmem).proc j
  name : s.name 0 = View.padded 16 initcodeName ∧ s.size 0 = pgSize
  dir : (s.table.proc 0).pgdir = pgdir ∧ pgdir ≠ 0
  kstack : l.head? = some (s.table.proc 0).kstack
  laidOut : (s.table.proc 0).LaidOut
  /-- The two words that the launch returns through, and the frame behind them. -/
  ctx : (s.table.proc 0).ctx = (s.table.proc 0).kstack + 3996
  forkRet : load32 s.table.kmem.mem ((s.table.proc 0).ctx + 16) = k.forkRet
  trapRet : load32 s.table.kmem.mem ((s.table.proc 0).ctx + 20) = k.trapRet
  tf : readFrame s.table.kmem.mem (s.table.proc 0).tf = userFrame
  user : UserSpace s.table.kmem.mem pgdir frame (fun i => st.kmem.mem (k.userInitCode + i))
    k.userInitCodeSize
  kernel : ∀ va, kernBase ≤ va → translate s.table.kmem.mem pgdir va = kernelLayout kdata va
  separate : Separate ⟨s.table.kmem, pgdir :: st.dirs, frame :: (s.table.proc 0).kstack :: st.frames⟩
    (l.drop 68)
  same : ∀ d ∈ st.dirs, SameDir st.kmem.mem s.table.kmem.mem d
  pages : frame ∈ l ∧ ∀ p, Owns s.table.kmem.mem pgdir p → p ∈ l

/-- What `init_user` returns with when none of its calls fails. -/
def initUserDone (s : UserInit) (t : ProcTable) (pgdir : Addr) (kmem : Kmem) : UserInit where
  lock := initLock
  table := t.set 0 { t.proc 0 with pgdir := pgdir, state := .runnable }
    { kmem with mem := fillTf (t.proc 0).tf kmem.mem }
  procFirst := some 0
  size := Function.update s.size 0 pgSize
  name := Function.update s.name 0 (View.padded 16 initcodeName)

theorem initUser_eq {k : UserSymbols} {kMaps : List Kmap} {s : UserInit} {t : ProcTable} {pgdir : Addr}
    {s₁ s₂ : Kmem} (halloc : s.table.allocProcess k.forkRet k.trapRet = .ok (some 0, t))
    (hsetup : setupKvm kMaps t.kmem = .ok (pgdir, s₁)) (h0 : pgdir ≠ 0)
    (hinit : initUvm pgdir k.userInitCode k.userInitCodeSize s₁ = .ok s₂) :
    initUser k kMaps s = .ok (initUserDone s t pgdir s₂) := by
  simp only [initUser, halloc, ok_bind, hsetup, if_neg h0, ProcTable.set_kmem, hinit, ProcTable.set_proc,
    ProcTable.set_set]
  rfl

/-- **`init_user`** at boot, with 68 pages free and the code in none of them, makes the first process. -/
theorem initUser_ok {kdata : Addr} (hal : PageAligned kdata) (hlo : kernLink < kdata)
    (hhi : kdata < p2v physTop) {st : VmState} {l : List Addr} (h : Separate st l) (hlen : 68 ≤ l.length)
    {k : UserSymbols} (himg : CodeImage k.userInitCode k.userInitCodeSize l) {s : UserInit}
    (hs : s.table = ProcTable.init st.kmem) :
    ∃ pgdir frame s', initUser k (initKmappings kdata) s = .ok s' ∧
      FirstProcess k kdata st l pgdir frame s' := by
  obtain ⟨kstack, l, rfl⟩ := List.exists_cons_of_ne_nil (List.length_pos_iff.mp (show 0 < l.length by omega))
  rw [List.length_cons] at hlen
  obtain ⟨t, halloc, ht⟩ := allocFirst k h
  have himg' : CodeImage k.userInitCode k.userInitCodeSize l :=
    ⟨himg.page, himg.not_null, himg.fits, fun i hi hmem => himg.apart i hi (List.mem_cons_of_mem _ hmem)⟩
  obtain ⟨pgdir, frame, s₁, s₂, hsetup, hinit, hnew, hout⟩ :=
    newSpace hal hlo hhi ht.separate (by omega) himg'
  rw [← hs] at halloc
  have hstack : kstack ∉ l := (List.nodup_cons.mp h.free.nodup).1
  have htf : (t.proc 0).tf = kstack + 4020 := ht.stack ▸ ht.laidOut.tf
  have hdone := hnew.write ht.separate List.mem_cons_self (fillTf_page ht.aligned s₂.mem)
  obtain ⟨hfork, htrap⟩ := ht.words (m := s₂.mem) fun x hx => hout x (hx ▸ hstack)
  have hframe := readFrame_words (fillTf_words (tf_ne_zero ht.aligned) s₂.mem)
  have hcode : ∀ i : Addr, i.toNat < k.userInitCodeSize.toNat →
      t.kmem.mem (k.userInitCode + i) = st.kmem.mem (k.userInitCode + i) := fun i hi =>
    ht.outside _ fun he => himg.apart i hi (he ▸ List.mem_cons_self)
  rw [← htf] at hdone hfork htrap hframe
  refine ⟨pgdir, frame, _, initUser_eq halloc hsetup hnew.ne_zero hinit, ?_⟩
  have hproc : (initUserDone s t pgdir s₂).table.proc 0 =
      { t.proc 0 with pgdir := pgdir, state := .runnable } := ProcTable.set_proc ..
  have hmem : (initUserDone s t pgdir s₂).table.kmem.mem = fillTf (t.proc 0).tf s₂.mem := rfl
  constructor
  case slot => rfl
  case lock => rfl
  case state => rw [hproc]
  case pid =>
    rw [hproc]
    exact ht.pid
  case others =>
    intro j hj
    exact (ProcTable.set_proc_of_ne hj ..).trans (ht.others j hj)
  case name =>
    show Function.update s.name 0 _ 0 = _ ∧ Function.update s.size 0 _ 0 = _
    rw [Function.update_self, Function.update_self]
    exact ⟨rfl, rfl⟩
  case dir =>
    rw [hproc]
    exact ⟨rfl, hnew.ne_zero⟩
  case kstack =>
    rw [hproc]
    exact congrArg some ht.stack.symm
  case laidOut =>
    rw [hproc]
    exact ht.laidOut
  case ctx =>
    rw [hproc]
    show (t.proc 0).ctx = (t.proc 0).kstack + 3996
    rw [ht.ctx, ht.stack]
  case forkRet =>
    rw [hproc, hmem]
    show load32 _ ((t.proc 0).ctx + 16) = _
    rw [ht.ctx, show kstack + 3996 + 16 = kstack + 4012 by bv_omega, hfork]
  case trapRet =>
    rw [hproc, hmem]
    show load32 _ ((t.proc 0).ctx + 20) = _
    rw [ht.ctx, show kstack + 3996 + 20 = kstack + 4016 by bv_omega, htrap]
  case tf =>
    rw [hproc, hmem]
    exact hframe
  case user =>
    refine hdone.dir.userSpace hal hlo hhi hdone.aligned hdone.ne fun i hi => (hdone.bytes i hi).trans ?_
    split_ifs with hlt
    · exact hcode i hlt
    · rfl
  case kernel =>
    intro va hva
    have hva' : 0x80000000 ≤ va.toNat := hva
    rw [hmem, hdone.dir.translate hal hlo hhi hdone.aligned, if_neg (by omega)]
  case separate =>
    rw [hproc, List.drop_succ_cons, ht.stack]
    exact hdone.separate
  case same => exact fun d hd => (ht.same d hd).trans (hdone.same d hd) (h.dirOk d hd).aligned
  case pages =>
    exact ⟨List.mem_cons_of_mem kstack hdone.pages.1,
      fun p hp => List.mem_cons_of_mem kstack (hdone.pages.2 p hp)⟩

end TuixOS
