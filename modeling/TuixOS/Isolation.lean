import TuixOS.BootUser

/-!
# Processes are isolated

The address spaces of the kernel's processes over a whole run: `setup_kvm` and `init_uvm` are called
in any order, `kalloc` hands out more pages, the rest of the kernel writes to any memory but tables
and free pages, and user mode stores bytes wherever a directory lets it. Calls that find no page are
not among the steps. `Space` says what the tables of one directory hold: the kernel's layout, and
page 0 in one frame or not at all. The frames are different pages, taken from the free list and never
part of a table (`Isolated`), so a user store reaches no table, no free page and no page of another
process.
-/

namespace TuixOS

open Lib

/-! ## One address space -/

/-- The entries of a directory with its page 0 in `frame`, if it has one. -/
def spacePte (kdata : Addr) (frame : Option Addr) (va : Addr) : Word :=
  match frame with
  | some f => if va.toNat < 4096 then mappedPte 0 (v2p f) (pteW ||| pteU) va else kernelPte kdata va
  | none => kernelPte kdata va

/-- Where these lead. -/
def spaceLayout (kdata : Addr) (frame : Option Addr) (va : Addr) : Option Translation :=
  match frame with
  | some f => if va.toNat < 4096 then some ⟨v2p f + va, true, true⟩ else kernelLayout kdata va
  | none => kernelLayout kdata va

structure Space (kdata : Addr) (m : Mem) (d : Addr) (frame : Option Addr) : Prop where
  pde : ∀ va, Present m d va → pdeOf m d va = v2p (tabOf m d va) ||| dirFlags
  pte : ∀ va, pteOf m d va = spacePte kdata frame va

/-- The pages that user mode reaches. -/
def userPages (m : Mem) (d : Addr) : Set Addr :=
  {f | ∃ va t, translate m d va = some t ∧ t.user = true ∧ pgRoundDown (p2v t.pa) = f}

theorem kernelLayout_user {kdata va : Addr} {t : Translation} (h : kernelLayout kdata va = some t) :
    t.user = false := by
  unfold kernelLayout at h
  split_ifs at h <;> cases h <;> rfl

theorem SameDir.pteOf {m m' : Mem} {d : Addr} (h : SameDir m m' d) (hd : PageAligned d) (va : Addr) :
    pteOf m' d va = TuixOS.pteOf m d va := by
  have hpde := h.pdeOf hd va
  by_cases hp : Present m d va
  · have hp' := (present_congr hpde).mpr hp
    rw [TuixOS.pteOf, TuixOS.pteOf, if_pos hp, if_pos hp', tabOf_congr hpde]
    exact h.entry hp (ptx_lt va)
  · have hp' : ¬Present m' d va := fun hp' => hp ((present_congr hpde).mp hp')
    rw [TuixOS.pteOf, TuixOS.pteOf, if_neg hp, if_neg hp']

namespace Space
variable {kdata d : Addr} {m m' : Mem} {frame frame' : Option Addr}

theorem same (h : Space kdata m d frame) (hd : PageAligned d) (hsame : SameDir m m' d) :
    Space kdata m' d frame where
  pde va hp := by
    have hpde := hsame.pdeOf hd va
    rw [tabOf_congr hpde, hpde]
    exact h.pde va ((present_congr hpde).mp hp)
  pte va := (hsame.pteOf hd va).trans (h.pte va)

/-- Tables are added by `walk_pgdir` alone. -/
theorem extend {s s' : Kmem} {l l' : List Addr} (h : Space kdata s.mem d frame)
    (hext : Extends d s l s' l') (hpte : ∀ va, pteOf s'.mem d va = spacePte kdata frame' va) :
    Space kdata s'.mem d frame' where
  pde va hp := by
    by_cases hold : Present s.mem d va
    · have heq := hext.pde va hold
      rw [tabOf_congr heq, heq]
      exact h.pde va hold
    · exact (hext.fresh va hold hp).2
  pte := hpte

theorem translate (hal : PageAligned kdata) (hlo : kernLink < kdata) (hhi : kdata < p2v physTop)
    (h : Space kdata m d frame) (hframe : ∀ f, frame = some f → PageAligned f) (va : Addr) :
    TuixOS.translate m d va = spaceLayout kdata frame va := by
  rw [translate_eq (h.pde va), h.pte]
  cases frame with
  | none => exact kernelPte_translation hal hlo hhi va
  | some f =>
    simp only [spacePte, spaceLayout]
    split_ifs with hva
    · have hpage : PageAligned f := hframe f rfl
      rw [pteTranslation_mappedPte (by decide) hpage.v2p (by decide),
        show va - 0 = va from BitVec.sub_zero va]
      rfl
    · exact kernelPte_translation hal hlo hhi va

end Space

/-! ## `init_uvm` on any directory -/

section MapFirst
variable {kdata d p : Addr} {s s' : Kmem} {l rest : List Addr}

/-- `map_pages` of page 0: no page for its table, or mapped. -/
theorem mapFirst_cases {pa perm : Word} {r : Int} (hl : FreeList s l) (hd : DirOk s.mem d l)
    (hrun : mapPages d 0 pgSize pa perm s = .ok (r, s')) :
    s' = s ∨ pteOf s.mem d 0 &&& pteP = 0 ∧ ∃ l', Extends d s l s' l' ∧
      ∀ va, pteOf s'.mem d va = if va.toNat < 4096 then pa ||| perm ||| pteP else pteOf s.mem d va := by
  have hlast : pgRoundDown (0 + pgSize - 1) = 0 := by decide
  have hround : pgRoundDown 0 = 0 := by decide
  have hloop : mapPagesLoop d 0 perm (2 ^ 20 - 1 + 1) 0 pa s = .ok (r, s') := by
    unfold mapPages at hrun
    rw [hlast, hround] at hrun
    exact hrun
  by_cases hfree : pteOf s.mem d 0 &&& pteP = 0
  · by_cases hroom : Present s.mem d 0 ∨ l ≠ []
    · obtain ⟨s₁, l', hstep, hext, hpte, -⟩ := mapPagesLoop_step hl hd hroom hfree 0 pa perm (2 ^ 20 - 1)
      rw [hstep, if_pos rfl] at hloop
      cases hloop
      refine Or.inr ⟨hfree, l', hext, fun va => ?_⟩
      rw [hpte]
      apply if_congr _ rfl rfl
      show va.toNat / 4096 = 0 ↔ va.toNat < 4096
      omega
    · obtain ⟨habs, hnil⟩ := not_or.mp hroom
      obtain rfl := not_not.mp hnil
      rw [mapPagesLoop_null hl habs] at hloop
      cases hloop
      exact Or.inl rfl
  · rw [mapPagesLoop_mapped hd hfree] at hloop
    cases hloop

/-- It returns on a directory without a page 0 alone, or changes nothing in it. -/
theorem Space.initUvm {frame : Option Addr} {init : Addr} {size : Word} (hl : FreeList s (p :: rest))
    (hd : DirOk s.mem d (p :: rest)) (hspace : Space kdata s.mem d frame)
    (hframe : ∀ f, frame = some f → PageAligned f) (hrun : initUvm d init size s = .ok s') :
    ∃ l', FreeList s' l' ∧ l' ⊆ rest ∧
      (Space kdata s'.mem d frame ∨ frame = none ∧ Space kdata s'.mem d (some p)) := by
  have hpage := hl.aligned p List.mem_cons_self
  have hcleared := cleared_memset hl hd
  unfold TuixOS.initUvm at hrun
  split_ifs at hrun with hsize
  simp only [hl.kalloc_cons] at hrun
  obtain ⟨⟨r, s₁⟩, hmap, hret⟩ := bind_eq_ok.mp hrun
  cases hret
  have hspace₁ : Space kdata (memset p 0 pgSize s.mem).2 d frame :=
    hspace.same hd.aligned (hcleared.outside.sameDir fun hown => hd.owns_not_free hown List.mem_cons_self)
  -- the frame is not one of the tables, so that the image changes none
  have hcopy : ∀ {l₁ fr}, Extends d ⟨(memset p 0 pgSize s.mem).2, runNext s.mem p⟩ rest s₁ l₁ →
      Space kdata s₁.mem d fr →
      FreeList { s₁ with mem := (memmove p init size s₁.mem).2 } l₁ ∧
        Space kdata (memmove p init size s₁.mem).2 d fr := by
    intro l₁ fr hext hfr
    have hmove := sameOutside_memmove hpage init (BitVec.not_lt.mp hsize) s₁.mem
    have hnot : ¬Owns s₁.mem d p := by
      rintro (he | ⟨va, hva, he⟩)
      · exact hcleared.ne he
      · exact hcleared.tab_ne_frame hext va hva he
    exact ⟨hext.free.write hmove fun hmem => hcleared.not_free (hext.mem_of_mem hmem),
      hfr.same hd.aligned (hmove.sameDir hnot)⟩
  rcases mapFirst_cases hcleared.free hcleared.dir hmap with rfl | ⟨hfree, l₁, hext, hpte⟩
  · obtain ⟨hfree', hspace'⟩ := hcopy (Extends.refl hcleared.free hcleared.dir) hspace₁
    exact ⟨rest, hfree', List.Subset.refl rest, Or.inl hspace'⟩
  · cases frame with
    | some f =>
      have hmapped : mappedPte 0 (v2p f) (pteW ||| pteU) 0 &&& pteP ≠ 0 :=
        mappedPte_present _ (by decide) (hframe f rfl).v2p 0
      rw [hspace₁.pte] at hfree
      exact absurd hfree hmapped
    | none =>
      have hmapped : Space kdata s₁.mem d (some p) := hspace₁.extend hext fun va => by
        rw [hpte, hspace₁.pte]
        apply if_ctx_congr Iff.rfl _ fun _ => rfl
        intro hva
        exact (mappedPte_start (by decide) _ _ (show va.toNat / 4096 = 0 by omega)).symm
      obtain ⟨hfree', hspace'⟩ := hcopy hext hmapped
      exact ⟨l₁, hfree', hext.suffix.subset, Or.inr ⟨rfl, hspace'⟩⟩

end MapFirst

/-! ## The system -/

def VmState.writeMem (st : VmState) (m : Mem) : VmState := { st with kmem := { st.kmem with mem := m } }

@[simp] theorem VmState.writeMem_mem (st : VmState) (m : Mem) : (st.writeMem m).kmem.mem = m := rfl

inductive SpaceOp
  | setupKvm
  | initUvm (pgdir init : Addr) (size : Word)
  /-- `kalloc` for the kernel itself. -/
  | takePage
  | kernelWrite
  | userStore (pgdir va : Addr) (b : Byte)

/-- `setup_kvm` with the mappings of `init_kmappings`, `init_uvm` on any directory that
`setup_kvm` returned; the kernel writes to no table and no free page, user mode wherever the
directory lets it. -/
inductive SpaceStep (kdata : Addr) : VmState → SpaceOp → VmState → Prop
  | setupKvm {st : VmState} {pgdir : Addr} {s : Kmem}
      (hrun : setupKvm (initKmappings kdata) st.kmem = .ok (pgdir, s)) (hnull : pgdir ≠ 0) :
      SpaceStep kdata st .setupKvm ⟨s, pgdir :: st.dirs, st.frames⟩
  | initUvm {st : VmState} {pgdir init : Addr} {size : Word} {s : Kmem} (hdir : pgdir ∈ st.dirs)
      (hnull : (kalloc st.kmem).1 ≠ 0) (hrun : initUvm pgdir init size st.kmem = .ok s) :
      SpaceStep kdata st (.initUvm pgdir init size) ⟨s, st.dirs, (kalloc st.kmem).1 :: st.frames⟩
  | takePage {st : VmState} (hnull : (kalloc st.kmem).1 ≠ 0) :
      SpaceStep kdata st .takePage ⟨(kalloc st.kmem).2, st.dirs, (kalloc st.kmem).1 :: st.frames⟩
  | kernelWrite {st : VmState} {l : List Addr} {m : Mem} (hl : FreeList st.kmem l)
      (hm : ∀ x, st.Uses l (pgRoundDown x) → m x = st.kmem.mem x) :
      SpaceStep kdata st .kernelWrite (st.writeMem m)
  | userStore {st : VmState} {pgdir va : Addr} {b : Byte} {t : Translation} (hdir : pgdir ∈ st.dirs)
      (ht : translate st.kmem.mem pgdir va = some t) (huser : t.user = true)
      (hwrite : t.writable = true) :
      SpaceStep kdata st (.userStore pgdir va b)
        (st.writeMem (Function.update st.kmem.mem (p2v t.pa) b))

/-- `F d` is the frame that the directory `d` maps, if it maps one; `l₀` are the pages free at the
start, `l` those free now. -/
structure Isolated (kdata : Addr) (l₀ : List Addr) (F : Addr → Option Addr) (st : VmState)
    (l : List Addr) : Prop where
  sep : Separate st l
  free_sub : l ⊆ l₀
  pool : st.frames ⊆ l₀
  space : ∀ d ∈ st.dirs, Space kdata st.kmem.mem d (F d)
  frame : ∀ d ∈ st.dirs, ∀ f, F d = some f → f ∈ st.frames
  inj : ∀ d ∈ st.dirs, ∀ d' ∈ st.dirs, ∀ f, F d = some f → F d' = some f → d = d'

namespace Isolated
variable {kdata : Addr} {l₀ l : List Addr} {F : Addr → Option Addr} {st st' : VmState} {d p : Addr}

theorem aligned (h : Isolated kdata l₀ F st l) (hd : d ∈ st.dirs) (f : Addr) (hf : F d = some f) :
    PageAligned f :=
  (h.sep.frame f (h.frame d hd f hf)).1

theorem translate (hal : PageAligned kdata) (hlo : kernLink < kdata) (hhi : kdata < p2v physTop)
    (h : Isolated kdata l₀ F st l) (hd : d ∈ st.dirs) (va : Addr) :
    TuixOS.translate st.kmem.mem d va = spaceLayout kdata (F d) va :=
  (h.space d hd).translate hal hlo hhi (h.aligned hd) va

/-- What user mode reaches lies in the frame. -/
theorem user (hal : PageAligned kdata) (hlo : kernLink < kdata) (hhi : kdata < p2v physTop)
    (h : Isolated kdata l₀ F st l) (hd : d ∈ st.dirs) {va : Addr} {t : Translation}
    (ht : TuixOS.translate st.kmem.mem d va = some t) (huser : t.user = true) :
    F d = some (pgRoundDown (p2v t.pa)) := by
  rw [h.translate hal hlo hhi hd] at ht
  cases hF : F d with
  | none =>
    rw [hF] at ht
    rw [kernelLayout_user ht] at huser
    cases huser
  | some f =>
    rw [hF] at ht
    simp only [spaceLayout] at ht
    split_ifs at ht with hva
    · cases ht
      have hpage : PageAligned f := h.aligned hd f hF
      have hoff : p2v (v2p f + va) - f = va := by
        simp only [p2v, v2p]
        generalize kernBase = g
        grind
      rw [(pgRoundDown_eq_iff hpage).mpr (by rwa [hoff])]
    · rw [kernelLayout_user ht] at huser
      cases huser

/-- A write to no table and no free page. -/
theorem write {m : Mem} (h : Isolated kdata l₀ F st l)
    (hm : ∀ x, st.Uses l (pgRoundDown x) → m x = st.kmem.mem x) :
    Isolated kdata l₀ F (st.writeMem m) l := by
  obtain ⟨hsep, hsame⟩ := h.sep.static hm
  exact ⟨hsep, h.free_sub, h.pool,
    fun d hd => (h.space d hd).same (h.sep.dirOk d hd).aligned (hsame d hd), h.frame, h.inj⟩

theorem frame_unused (h : Isolated kdata l₀ F st l) (hd : d ∈ st.dirs) {f : Addr} (hf : F d = some f) :
    ¬st.Uses l f := by
  obtain ⟨-, -, hfree, hown⟩ := h.sep.frame f (h.frame d hd f hf)
  rintro (hmem | ⟨d', hd', hown'⟩)
  · exact hfree hmem
  · exact hown d' hd' hown'

theorem setupKvm (hal : PageAligned kdata) (hlo : kernLink < kdata) (hhi : kdata < p2v physTop)
    (h : Isolated kdata l₀ F st l) {s : Kmem}
    (hrun : TuixOS.setupKvm (initKmappings kdata) st.kmem = .ok (d, s)) (hnull : d ≠ 0) :
    Isolated kdata l₀ (Function.update F d none) ⟨s, d :: st.dirs, st.frames⟩ (l.drop 65) := by
  have hneeds := setupKvm_needs hal hlo hhi h.sep.free hrun hnull
  obtain ⟨d', s', hrun', hk⟩ := setupKvm_ok hal hlo hhi h.sep.free hneeds
  rw [hrun] at hrun'
  cases hrun'
  obtain ⟨⟨l', hsep⟩, hsame⟩ := h.sep.setupKvm hrun hnull
  obtain rfl : l' = l.drop 65 := hsep.free.unique hk.free
  have hne : ∀ e ∈ st.dirs, e ≠ d := by
    rintro e he rfl
    exact (h.sep.dirOk e he).not_free hk.page
  have hold : ∀ e ∈ st.dirs, Function.update F d none e = F e := fun e he =>
    Function.update_of_ne (hne e he) ..
  have hnew : Function.update F d none d = none := Function.update_self ..
  refine ⟨hsep, List.Subset.trans (List.drop_subset 65 l) h.free_sub, h.pool, fun e he => ?_, fun e he f hf => ?_,
    fun e he e' he' f hf hf' => ?_⟩
  · rcases List.mem_cons.mp he with rfl | he
    · rw [hnew]
      exact ⟨fun va hp => (hk.pde va hp).2, hk.pte⟩
    · rw [hold e he]
      exact (h.space e he).same (h.sep.dirOk e he).aligned (hsame e he (by simp))
  · rcases List.mem_cons.mp he with rfl | he
    · rw [hnew] at hf
      cases hf
    · exact h.frame e he f (hold e he ▸ hf)
  · rcases List.mem_cons.mp he with rfl | he
    · rw [hnew] at hf
      cases hf
    · rcases List.mem_cons.mp he' with rfl | he'
      · rw [hnew] at hf'
        cases hf'
      · exact h.inj e he e' he' f (hold e he ▸ hf) (hold e' he' ▸ hf')

theorem initUvm (h : Isolated kdata l₀ F st l) {init : Addr} {size : Word} {s : Kmem}
    (hd : d ∈ st.dirs) (hnull : (kalloc st.kmem).1 ≠ 0)
    (hrun : TuixOS.initUvm d init size st.kmem = .ok s) :
    ∃ F' l', Isolated kdata l₀ F' ⟨s, st.dirs, (kalloc st.kmem).1 :: st.frames⟩ l' := by
  obtain ⟨⟨l', hsep⟩, hsame⟩ := h.sep.initUvm hd hnull hrun
  obtain ⟨p, rest, rfl, hk⟩ := h.sep.kalloc_page hnull
  rw [hk] at hsep ⊢
  obtain ⟨l₁, hfree, hsub, hspace⟩ := (h.space d hd).initUvm h.sep.free (h.sep.dirOk d hd) (h.aligned hd) hrun
  obtain rfl : l' = l₁ := hsep.free.unique hfree
  have hsub' : l' ⊆ l₀ := List.Subset.trans (List.Subset.trans hsub (List.subset_cons_self p rest)) h.free_sub
  have hpool : p :: st.frames ⊆ l₀ := List.cons_subset.mpr ⟨h.free_sub List.mem_cons_self, h.pool⟩
  have hothers : ∀ e ∈ st.dirs, e ≠ d → Space kdata s.mem e (F e) := fun e he hne =>
    (h.space e he).same (h.sep.dirOk e he).aligned (hsame e he fun heq => hne (Option.some.inj heq).symm)
  rcases hspace with hsame' | ⟨hnone, hspace⟩
  · refine ⟨F, l', hsep, hsub', hpool, fun e he => ?_,
      fun e he f hf => List.mem_cons_of_mem p (h.frame e he f hf), h.inj⟩
    by_cases hne : e = d
    · rw [hne]
      exact hsame'
    · exact hothers e he hne
  · have hnew : Function.update F d (some p) d = some p := Function.update_self ..
    have hold : ∀ e, e ≠ d → Function.update F d (some p) e = F e := fun e hne =>
      Function.update_of_ne hne ..
    -- the page was free, and so the frame of no directory
    have hfresh : ∀ e ∈ st.dirs, F e ≠ some p := fun e he hf =>
      (h.sep.frame p (h.frame e he p hf)).2.2.1 List.mem_cons_self
    refine ⟨Function.update F d (some p), l', hsep, hsub', hpool, fun e he => ?_, fun e he f hf => ?_,
      fun e he e' he' f hf hf' => ?_⟩
    · by_cases hne : e = d
      · rw [hne, hnew]
        exact hspace
      · rw [hold e hne]
        exact hothers e he hne
    · by_cases hne : e = d
      · rw [hne, hnew] at hf
        cases hf
        exact List.mem_cons_self
      · exact List.mem_cons_of_mem p (h.frame e he f (hold e hne ▸ hf))
    · by_cases hne : e = d <;> by_cases hne' : e' = d
      · rw [hne, hne']
      · rw [hne, hnew] at hf
        cases hf
        exact absurd (hold e' hne' ▸ hf') (hfresh e' he')
      · rw [hne', hnew] at hf'
        cases hf'
        exact absurd (hold e hne ▸ hf) (hfresh e he)
      · exact h.inj e he e' he' f (hold e hne ▸ hf) (hold e' hne' ▸ hf')

theorem takePage (h : Isolated kdata l₀ F st l) (hnull : (kalloc st.kmem).1 ≠ 0) :
    ∃ l', Isolated kdata l₀ F ⟨(kalloc st.kmem).2, st.dirs, (kalloc st.kmem).1 :: st.frames⟩ l' := by
  obtain ⟨p, rest, rfl, hk⟩ := h.sep.kalloc_page hnull
  rw [hk]
  exact ⟨rest, h.sep.take, List.Subset.trans (List.subset_cons_self p rest) h.free_sub,
    List.cons_subset.mpr ⟨h.free_sub List.mem_cons_self, h.pool⟩, h.space,
    fun d hd f hf => List.mem_cons_of_mem p (h.frame d hd f hf), h.inj⟩

/-- A user store writes one byte of the directory's frame. -/
theorem userStore (hal : PageAligned kdata) (hlo : kernLink < kdata) (hhi : kdata < p2v physTop)
    (h : Isolated kdata l₀ F st l) {va : Addr} {t : Translation} (hd : d ∈ st.dirs)
    (ht : TuixOS.translate st.kmem.mem d va = some t) (huser : t.user = true) (b : Byte) :
    ∃ f, F d = some f ∧ SameOutside f st.kmem.mem (Function.update st.kmem.mem (p2v t.pa) b) := by
  refine ⟨_, h.user hal hlo hhi hd ht huser, fun x hx => Function.update_of_ne ?_ ..⟩
  rintro rfl
  exact hx rfl

theorem unused_same {f : Addr} {m : Mem} (h : Isolated kdata l₀ F st l) (hd : d ∈ st.dirs)
    (hf : F d = some f) (hm : SameOutside f st.kmem.mem m) (x : Addr)
    (hx : st.Uses l (pgRoundDown x)) : m x = st.kmem.mem x := by
  apply hm
  rintro rfl
  exact h.frame_unused hd hf hx

theorem step (hal : PageAligned kdata) (hlo : kernLink < kdata) (hhi : kdata < p2v physTop)
    (h : Isolated kdata l₀ F st l) {op : SpaceOp} (hstep : SpaceStep kdata st op st') :
    ∃ F' l', Isolated kdata l₀ F' st' l' := by
  cases hstep with
  | setupKvm hrun hnull => exact ⟨_, _, h.setupKvm hal hlo hhi hrun hnull⟩
  | initUvm hdir hnull hrun => exact h.initUvm hdir hnull hrun
  | takePage hnull => exact ⟨F, h.takePage hnull⟩
  | kernelWrite hl hm => exact ⟨F, l, h.write (h.sep.free.unique hl ▸ hm)⟩
  | userStore hdir ht huser hwrite =>
    obtain ⟨f, hf, hm⟩ := h.userStore hal hlo hhi hdir ht huser _
    exact ⟨F, l, h.write (h.unused_same hdir hf hm)⟩

theorem run (hal : PageAligned kdata) (hlo : kernLink < kdata) (hhi : kdata < p2v physTop) {s : Kmem}
    (hl : FreeList s l₀) {ops : List SpaceOp} (hrun : Run (SpaceStep kdata) ⟨s, [], []⟩ ops st) :
    ∃ F l, Isolated kdata l₀ F st l := by
  have hsep : Separate ⟨s, [], []⟩ l₀ :=
    ⟨hl, by simp, List.nodup_nil, by simp, List.nodup_nil, by simp⟩
  have hinit : Isolated kdata l₀ (fun _ => none) ⟨s, [], []⟩ l₀ :=
    ⟨hsep, List.Subset.refl l₀, List.nil_subset l₀, by simp, by simp, by simp⟩
  exact hrun.state_invariant (I := fun st => ∃ F l, Isolated kdata l₀ F st l) ⟨_, _, hinit⟩
    fun _ _ _ ⟨_, _, h⟩ hstep => h.step hal hlo hhi hstep

/-- The kernel's half is in every directory. -/
theorem kernel_half (hal : PageAligned kdata) (hlo : kernLink < kdata) (hhi : kdata < p2v physTop)
    (h : Isolated kdata l₀ F st l) (hd : d ∈ st.dirs) {va : Addr} {t : Translation}
    (ht : kernelLayout kdata va = some t) : TuixOS.translate st.kmem.mem d va = some t := by
  rw [h.translate hal hlo hhi hd]
  cases F d with
  | none => exact ht
  | some f =>
    have hva : ¬va.toNat < 4096 := by
      intro hva
      have hbase : ¬(kernBase ≤ va ∧ va < p2v physTop) := fun hbase => by
        have hlow : 0x80000000 ≤ va.toNat := hbase.1
        omega
      have hdev : ¬devSpace ≤ va := fun hdev => by
        have hlow : 0xFE000000 ≤ va.toNat := hdev
        omega
      rw [kernelLayout, if_neg hbase, if_neg hdev] at ht
      cases ht
    rw [spaceLayout, if_neg hva]
    exact ht

end Isolated

/-- **Processes are isolated.** However address spaces are made and written, in every state each
directory maps the kernel's half; what user mode reaches through one is at most a page that was taken
from the free list and is no part of a table, not free and not reached through another directory; and
a user store changes no translation and no byte that another process reaches. -/
theorem spaces_isolated {kdata : Addr} (hal : PageAligned kdata) (hlo : kernLink < kdata)
    (hhi : kdata < p2v physTop) {s : Kmem} {l₀ : List Addr} (hl : FreeList s l₀) {ops : List SpaceOp}
    {st : VmState} (hrun : Run (SpaceStep kdata) ⟨s, [], []⟩ ops st) :
    (∀ d ∈ st.dirs, ∀ va t, kernelLayout kdata va = some t → translate st.kmem.mem d va = some t) ∧
    (∀ d ∈ st.dirs, (userPages st.kmem.mem d).Subsingleton ∧
      ∀ f ∈ userPages st.kmem.mem d, f ∈ l₀ ∧ (∀ l, FreeList st.kmem l → f ∉ l) ∧
        ∀ d' ∈ st.dirs, ¬Owns st.kmem.mem d' f ∧ (d' ≠ d → f ∉ userPages st.kmem.mem d')) ∧
    ∀ d va b st', SpaceStep kdata st (.userStore d va b) st' → ∀ d' ∈ st.dirs,
      (∀ va', translate st'.kmem.mem d' va' = translate st.kmem.mem d' va') ∧
      (d' ≠ d → ∀ va' t, translate st.kmem.mem d' va' = some t → t.user = true →
        st'.kmem.mem (p2v t.pa) = st.kmem.mem (p2v t.pa)) := by
  obtain ⟨F, l, h⟩ := Isolated.run hal hlo hhi hl hrun
  have hpages : ∀ d ∈ st.dirs, ∀ f ∈ userPages st.kmem.mem d, F d = some f := by
    rintro d hd f ⟨va, t, ht, huser, rfl⟩
    exact h.user hal hlo hhi hd ht huser
  refine ⟨fun d hd va t ht => h.kernel_half hal hlo hhi hd ht, fun d hd => ⟨fun f hf g hg => ?_,
    fun f hf => ?_⟩, fun d va b st' hstep d' hd' => ?_⟩
  · exact Option.some.inj ((hpages d hd f hf).symm.trans (hpages d hd g hg))
  · have hF := hpages d hd f hf
    have hunused := h.frame_unused hd hF
    refine ⟨h.pool (h.frame d hd f hF), fun l' hl' hmem => hunused (Or.inl ?_), fun d' hd' =>
      ⟨fun hown => hunused (Or.inr ⟨d', hd', hown⟩), fun hne hf' => hne ?_⟩⟩
    · rwa [h.sep.free.unique hl']
    · exact h.inj d' hd' d hd f (hpages d' hd' f hf') hF
  · cases hstep with
    | userStore hdir ht huser hwrite =>
      obtain ⟨f, hF, hm⟩ := h.userStore hal hlo hhi hdir ht huser b
      obtain ⟨-, hsame⟩ := h.sep.static (h.unused_same hdir hF hm)
      refine ⟨(hsame d' hd').translate (h.sep.dirOk d' hd').aligned, fun hne va' t' ht' huser' => ?_⟩
      have hpage : pgRoundDown (p2v t'.pa) ≠ f := by
        intro hpage
        have hF' := h.user hal hlo hhi hd' ht' huser'
        rw [hpage] at hF'
        exact hne (h.inj d' hd' d hdir f hF' hF)
      rw [VmState.writeMem_mem, hm _ hpage]

/-- Two processes, of which the first stores to its page. -/
theorem spaces_isolated_two : ∃ ops st d₁ d₂ st',
    Run (SpaceStep 0x80110000) ⟨someFree 140, [], []⟩ ops st ∧ st.dirs = [d₂, d₁] ∧
      SpaceStep 0x80110000 st (.userStore d₁ 5 7) st' ∧ (userPages st.kmem.mem d₁).Subsingleton ∧
      ∀ va', translate st'.kmem.mem d₂ va' = translate st.kmem.mem d₂ va' := by
  have hal : PageAligned 0x80110000 := by decide
  have hlo : kernLink < 0x80110000 := by decide
  have hhi : 0x80110000 < p2v physTop := by decide
  have hl := someFree_ok 140 (by decide)
  have hlen : (somePages 140).length = 140 := by simp [somePages]
  have himg : CodeImage 0x80105000 35 (somePages 140) := codeImage_text (by decide)
  have hsep : Separate ⟨someFree 140, [], []⟩ (somePages 140) :=
    ⟨hl, by simp, List.nodup_nil, by simp, List.nodup_nil, by simp⟩
  obtain ⟨d₁, f₁, s₁, s₂, hsetup₁, hinit₁, h₁, -⟩ := newSpace hal hlo hhi hsep (by omega) himg
  have himg' : CodeImage 0x80105000 35 ((somePages 140).drop 67) :=
    ⟨himg.page, himg.not_null, himg.fits, fun i hi hmem => himg.apart i hi (List.mem_of_mem_drop hmem)⟩
  have hlen' : ((somePages 140).drop 67).length = 73 := by rw [List.length_drop, hlen]
  obtain ⟨d₂, f₂, s₃, s₄, hsetup₂, hinit₂, h₂, -⟩ := newSpace hal hlo hhi h₁.separate (by omega) himg'
  have hk₁ := setupKvm_kalloc hal hlo hhi hl (by omega) hsetup₁
  have hk₂ := setupKvm_kalloc hal hlo hhi h₁.separate.free (by omega) hsetup₂
  have hfirst : SpaceStep 0x80110000 ⟨someFree 140, [], []⟩ .setupKvm _ := .setupKvm hsetup₁ h₁.ne_zero
  have hrun := (((Run.single hfirst).snoc (.initUvm List.mem_cons_self hk₁ hinit₁)).snoc
    (.setupKvm hsetup₂ h₂.ne_zero)).snoc (.initUvm List.mem_cons_self hk₂ hinit₂)
  have hpage : translate s₄.mem d₁ 5 = some ⟨v2p f₁ + 5, true, true⟩ := by
    rw [(h₂.same d₁ List.mem_cons_self).translate h₁.dir.dir.aligned,
      h₁.dir.translate hal hlo hhi h₁.aligned]
    rfl
  have hmem : d₁ ∈ [d₂, d₁] := List.mem_cons_of_mem d₂ List.mem_cons_self
  have hstore : SpaceStep 0x80110000 ⟨s₄, [d₂, d₁], [(kalloc s₃).1, (kalloc s₁).1]⟩ (.userStore d₁ 5 7) _ :=
    .userStore hmem hpage rfl rfl
  obtain ⟨-, hpages, hstores⟩ := spaces_isolated hal hlo hhi hl hrun
  exact ⟨_, _, d₁, d₂, _, hrun, rfl, hstore, (hpages d₁ hmem).1,
    (hstores d₁ 5 7 _ hstore d₂ List.mem_cons_self).1⟩

end TuixOS
